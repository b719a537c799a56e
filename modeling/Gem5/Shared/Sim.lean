import Mathlib.Logic.Function.Basic

/-!
# Simulator code that may stop

A function of the simulator either returns or stops the whole simulation: an
`assert` fails, a `panic` is raised, or a store goes past the end of its buffer.
Nothing catches the stop, so a run of the program consists of `ok` results only.
-/

namespace Gem5

variable {α β : Type}

inductive Abort where
  | assertion
  | panic (message : String)
  | outOfBounds
  deriving DecidableEq, Repr

abbrev Sim := Except Abort

structure Clock where
  edge : Nat → Nat
  period : Nat
  le_edge : ∀ tick, tick ≤ edge tick

/-- `MaxTick`, which stands for "never". -/
def maxTick : Nat := 0xffffffffffffffff

def simAssert (b : Bool) : Sim Unit := if b then .ok () else .error .assertion

/-- Reading a slot that holds the "unset" marker (`-1`, `NULL`) trips the assert in front of it. -/
def simSome (o : Option α) : Sim α :=
  match o with
  | some a => .ok a
  | none => .error .assertion

@[simp] theorem simAssert_true : simAssert true = .ok () := rfl

@[simp] theorem simAssert_false : simAssert false = .error .assertion := rfl

theorem simAssert_of {b : Bool} (h : b = true) : simAssert b = .ok () := by
  subst h
  rfl

theorem simAssert_eq_ok {b : Bool} {x : Unit} : simAssert b = .ok x ↔ b = true := by
  cases b <;> simp

@[simp] theorem simSome_some (a : α) : simSome (some a) = .ok a := rfl

@[simp] theorem simSome_none : simSome (none : Option α) = .error .assertion := rfl

theorem simSome_eq_ok {o : Option α} {a : α} : simSome o = .ok a ↔ o = some a := by
  cases o <;> simp

@[simp] theorem sim_ok_bind (a : α) (f : α → Sim β) : (Except.ok a >>= f) = f a := rfl

@[simp] theorem sim_error_bind (e : Abort) (f : α → Sim β) :
    ((Except.error e : Sim α) >>= f) = .error e := rfl

@[simp] theorem sim_pure_bind (a : α) (f : α → Sim β) : ((pure a : Sim α) >>= f) = f a := rfl

@[simp] theorem sim_pure (a : α) : (pure a : Sim α) = .ok a := rfl

theorem eq_of_ok {x : Sim α} {a b : α} (ha : x = .ok a) (hb : x = .ok b) : a = b :=
  Except.ok.inj (ha.symm.trans hb)

theorem bind_eq_ok {x : Sim α} {f : α → Sim β} {b : β} :
    (x >>= f) = .ok b ↔ ∃ a, x = .ok a ∧ f a = .ok b := by
  cases x with
  | error e | ok a => simp

theorem map_eq_ok {x : Sim α} {f : α → β} {b : β} :
    (x >>= fun a => (pure (f a) : Sim β)) = .ok b ↔ ∃ a, x = .ok a ∧ f a = b := by
  rw [bind_eq_ok]
  exact exists_congr fun a => and_congr_right fun _ => ⟨Except.ok.inj, congrArg Except.ok⟩

def OkOrPanic (x : Sim α) (P : α → Prop) : Prop :=
  (∃ a, x = .ok a ∧ P a) ∨ ∃ message, x = .error (.panic message)

namespace OkOrPanic

variable {x : Sim α} {P Q : α → Prop}

theorem ok {a : α} (h : P a) : OkOrPanic (.ok a) P := .inl ⟨a, rfl, h⟩

theorem bind {f : α → Sim β} {R : β → Prop} (h : OkOrPanic x P)
    (hf : ∀ a, P a → OkOrPanic (f a) R) :
    OkOrPanic (x >>= f) R := by
  rcases h with ⟨a, rfl, ha⟩ | ⟨message, rfl⟩
  · exact hf a ha
  · exact .inr ⟨message, rfl⟩

theorem mono (h : OkOrPanic x P) (hpq : ∀ a, P a → Q a) : OkOrPanic x Q := by
  rcases h with ⟨a, hx, ha⟩ | hpanic
  · exact .inl ⟨a, hx, hpq a ha⟩
  · exact .inr hpanic

theorem of_ok (h : OkOrPanic x P) {a : α} (hx : x = .ok a) : P a := by
  rcases h with ⟨b, hb, hp⟩ | ⟨message, hm⟩
  · cases hx.symm.trans hb
    exact hp
  · cases hx.symm.trans hm

theorem no_assertion (h : OkOrPanic x P) : x ≠ .error .assertion := by
  rintro rfl
  rcases h with ⟨_, ha, _⟩ | ⟨_, hm⟩
  · cases ha
  · cases hm

end OkOrPanic

def okAnd (x : Sim α) (p : α → Bool) : Bool :=
  match x with
  | .ok a => p a
  | .error _ => false

def failsWith (x : Sim α) (e : Abort) : Bool :=
  match x with
  | .ok _ => false
  | .error f => decide (f = e)

theorem okAnd_iff {x : Sim α} {p : α → Bool} : okAnd x p = true ↔ ∃ a, x = .ok a ∧ p a = true := by
  cases x <;> simp [okAnd]

theorem failsWith_iff {x : Sim α} {e : Abort} : failsWith x e = true ↔ x = .error e := by
  cases x <;> simp [failsWith]

instance (x : Sim α) (e : Abort) : Decidable (x = .error e) := decidable_of_iff _ failsWith_iff

end Gem5
