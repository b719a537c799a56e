import Mathlib.Logic.Relation

/-!
# Runs of a partial step function

`step s a` is one action of a machine that may stop with an error. `Moves` keeps
the actions that a side condition `allowed` admits in the state they start from
and that return; a run is the reflexive transitive closure of it.
-/

namespace Gem5

variable {S A E : Type} (step : S → A → Except E S) (allowed : S → A → Prop)

def Moves (s t : S) : Prop := ∃ a, allowed s a ∧ step s a = .ok t

def Reach : S → S → Prop := Relation.ReflTransGen (Moves step allowed)

def runFrom [∀ s a, Decidable (allowed s a)] : S → List A → Option S
  | s, [] => some s
  | s, a :: rest =>
    if allowed s a then
      match step s a with
      | .ok t => runFrom t rest
      | .error _ => none
    else none

variable {step allowed} {P : S → Prop} {s t u : S}

namespace Reach

theorem refl (s : S) : Reach step allowed s s := Relation.ReflTransGen.refl

theorem snoc {a : A} (h : Reach step allowed s t) (ha : allowed t a) (hs : step t a = .ok u) :
    Reach step allowed s u := Relation.ReflTransGen.tail h ⟨a, ha, hs⟩

theorem single {a : A} (ha : allowed s a) (hs : step s a = .ok t) : Reach step allowed s t :=
  (refl s).snoc ha hs

theorem trans (h : Reach step allowed s t) (k : Reach step allowed t u) :
    Reach step allowed s u := Relation.ReflTransGen.trans h k

theorem mono {wider : S → A → Prop} (hw : ∀ s a, allowed s a → wider s a)
    (h : Reach step allowed s t) : Reach step wider s t :=
  Relation.ReflTransGen.mono (fun _ _ ⟨a, ha, hs⟩ => ⟨a, hw _ a ha, hs⟩) _ _ h

theorem invariant (h : Reach step allowed s t) (start : P s)
    (keep : ∀ {s t : S} {a : A}, P s → allowed s a → step s a = .ok t → P t) : P t := by
  induction h with
  | refl => exact start
  | tail _ move ih =>
    obtain ⟨a, ha, hs⟩ := move
    exact keep ih ha hs

theorem invariant_under {Q : S → Prop} (h : Reach step allowed s t)
    (known : ∀ {t : S}, Reach step allowed s t → Q t) (start : P s)
    (keep : ∀ {s t : S} {a : A}, Q s → P s → allowed s a → step s a = .ok t → P t) : P t := by
  have both : Q t ∧ P t := by
    induction h with
    | refl => exact ⟨known (refl s), start⟩
    | tail path move ih =>
      obtain ⟨a, ha, hs⟩ := move
      exact ⟨known (snoc path ha hs), keep ih.1 ih.2 ha hs⟩
  exact both.2

theorem of_runFrom [∀ s a, Decidable (allowed s a)] {wider : S → A → Prop} {acts : List A} :
    ∀ {s}, (∀ a ∈ acts, ∀ s, allowed s a → wider s a) → runFrom step allowed s acts = some t →
      Reach step wider s t := by
  induction acts with
  | nil =>
    intro s _ h
    cases h
    exact refl _
  | cons a rest ih =>
    intro s hw h
    rw [runFrom] at h
    split at h
    · rename_i ha
      cases hs : step s a with
      | error e =>
        rw [hs] at h
        cases h
      | ok u =>
        rw [hs] at h
        have hrest := ih (fun b hb => hw b (List.mem_cons_of_mem a hb)) h
        exact (single (hw a List.mem_cons_self s ha) hs).trans hrest
    · cases h

variable (step allowed s) in
theorem exists_of_runFrom_all [∀ s a, Decidable (allowed s a)] (wider : S → A → Prop)
    (acts : List A) (hw : ∀ a ∈ acts, ∀ s, allowed s a → wider s a) (P : S → Prop) [DecidablePred P]
    (h : (runFrom step allowed s acts).any (fun t => decide (P t)) = true) :
    ∃ t, Reach step wider s t ∧ P t := by
  cases hr : runFrom step allowed s acts with
  | none =>
    rw [hr] at h
    cases h
  | some t =>
    rw [hr] at h
    exact ⟨t, of_runFrom hw hr, of_decide_eq_true h⟩

variable (step allowed s) in
theorem exists_of_runFrom [∀ s a, Decidable (allowed s a)] (acts : List A) (P : S → Prop)
    [DecidablePred P] (h : (runFrom step allowed s acts).any (fun t => decide (P t)) = true) :
    ∃ t, Reach step allowed s t ∧ P t :=
  exists_of_runFrom_all step allowed s allowed acts (fun _ _ _ ha => ha) P h

theorem exists_of_run [∀ s a, Decidable (allowed s a)] [DecidablePred P] (acts : List A)
    (h : (runFrom step allowed s acts).any (fun t => decide (P t)) = true) :
    ∃ t, Reach step allowed s t ∧ P t :=
  exists_of_runFrom step allowed s acts P h

end Reach

end Gem5
