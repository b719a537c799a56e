import Mathlib.Data.List.Basic

/-!
# Retiring finished jobs in order

Jobs finish in any order but leave a queue from its front. `drainLoop` is the
do-while loop that retires the front job, which the caller knows to be finished,
and goes on as long as the next one is finished too. `exhaust` repeats an
optional step until it has nothing to do, within a bound on the repetitions.
-/

namespace Gem5.InOrder

variable {S J E : Type}

def drainLoop (pop : J → S → Except E S) (ready : S → J → Bool) : List J → S → Except E S
  | [], s => .ok s
  | j :: rest, s => do
    let t ← pop j s
    match rest with
    | [] => .ok t
    | next :: _ => if ready t next then drainLoop pop ready rest t else .ok t

def exhaust (next : S → Except E (Option S)) : Nat → S → Except E S
  | 0, s => .ok s
  | n + 1, s => do
    match ← next s with
    | none => .ok s
    | some t => exhaust next n t

section Drain
variable {pop : J → S → Except E S} {r : S → J → Bool} {P : List J → S → Prop}

theorem drainLoop_cons {j : J} {rest : List J} {s t : S} (h : pop j s = .ok t) :
    drainLoop pop r (j :: rest) s =
      match rest with
      | [] => .ok t
      | next :: _ => if r t next then drainLoop pop r rest t else .ok t := by
  rw [drainLoop, h]
  rfl

theorem drainLoop_invariant {P : S → Prop} (keep : ∀ {j s t}, P s → pop j s = .ok t → P t) :
    ∀ {jobs s t}, P s → drainLoop pop r jobs s = .ok t → P t := by
  intro jobs
  induction jobs with
  | nil =>
    intro s t hp h
    cases h
    exact hp
  | cons j rest ih =>
    intro s t hp h
    cases hpop : pop j s with
    | error e =>
      rw [drainLoop, hpop] at h
      cases h
    | ok u =>
      have hu := keep hp hpop
      rw [drainLoop_cons hpop] at h
      cases rest with
      | nil =>
        cases h
        exact hu
      | cons next later =>
        dsimp only at h
        split at h
        · exact ih hu h
        · cases h
          exact hu

theorem drainLoop_keeps
    (keep : ∀ {j rest s t}, P (j :: rest) s → r s j = true → pop j s = .ok t → P rest t) :
    ∀ {rest j s t}, P (j :: rest) s → r s j = true → drainLoop pop r (j :: rest) s = .ok t →
      ∃ q, P q t ∧ ∀ x, q.head? = some x → r t x = false := by
  intro rest
  induction rest with
  | nil =>
    intro j s t hp hr h
    cases hpop : pop j s with
    | error e =>
      rw [drainLoop, hpop] at h
      cases h
    | ok u =>
      rw [drainLoop_cons hpop] at h
      cases h
      exact ⟨[], keep hp hr hpop, by simp⟩
  | cons next rest ih =>
    intro j s t hp hr h
    cases hpop : pop j s with
    | error e =>
      rw [drainLoop, hpop] at h
      cases h
    | ok u =>
      have hu := keep hp hr hpop
      rw [drainLoop_cons hpop] at h
      cases hn : r u next with
      | true => exact ih hu hn (by simpa [hn] using h)
      | false =>
        have hut : u = t := by simpa [hn] using h
        subst hut
        refine ⟨next :: rest, hu, ?_⟩
        intro x hx
        rw [← Option.some.inj hx]
        exact hn

theorem drainLoop_returns
    (go : ∀ {j rest s}, P (j :: rest) s → r s j = true → ∃ t, pop j s = .ok t ∧ P rest t) :
    ∀ {rest j s}, P (j :: rest) s → r s j = true → ∃ t, drainLoop pop r (j :: rest) s = .ok t := by
  intro rest
  induction rest with
  | nil =>
    intro j s hp hr
    obtain ⟨t, ht, _⟩ := go hp hr
    exact ⟨t, drainLoop_cons ht⟩
  | cons next rest ih =>
    intro j s hp hr
    obtain ⟨t, ht, hq⟩ := go hp hr
    rw [drainLoop_cons ht]
    cases hn : r t next with
    | true => simpa [hn] using ih hq hn
    | false => exact ⟨t, by simp [hn]⟩

end Drain

section Exhaust
variable {next : S → Except E (Option S)} {P : S → Prop} (size : S → Nat)

omit size in
/-- A property that every single step keeps holds after the repetitions. -/
theorem exhaust_invariant (keep : ∀ {s t}, P s → next s = .ok (some t) → P t) :
    ∀ {n s t}, P s → exhaust next n s = .ok t → P t := by
  intro n
  induction n with
  | zero =>
    intro s t hp h
    cases h
    exact hp
  | succ n ih =>
    intro s t hp h
    cases hn : next s with
    | error e =>
      rw [exhaust, hn] at h
      cases h
    | ok o =>
      rw [exhaust, hn] at h
      cases o with
      | none =>
        cases h
        exact hp
      | some u => exact ih (keep hp hn) h

theorem exhaust_returns
    (go : ∀ {s}, P s → next s = .ok none ∨ ∃ t, next s = .ok (some t) ∧ P t ∧ size t < size s) :
    ∀ {n s}, P s → size s ≤ n → ∃ t, exhaust next n s = .ok t ∧ P t ∧ next t = .ok none := by
  intro n
  induction n with
  | zero =>
    intro s hp hs
    rcases go hp with h | ⟨t, _, _, hlt⟩
    · exact ⟨s, rfl, hp, h⟩
    · omega
  | succ n ih =>
    intro s hp hs
    rcases go hp with h | ⟨t, ht, hq, hlt⟩
    · exact ⟨s, by rw [exhaust, h]; rfl, hp, h⟩
    · obtain ⟨u, hu, hpu, hnone⟩ := ih hq (by omega)
      exact ⟨u, by rw [exhaust, ht]; exact hu, hpu, hnone⟩

end Exhaust

end Gem5.InOrder
