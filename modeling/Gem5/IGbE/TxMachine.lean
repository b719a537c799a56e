import Gem5.IGbE.TxQueue

/-!
# The transmit state machine

What happens to a transmit queue from outside: the end of a DMA, a register write or a
timer, and the ticks of the state machine. A tick is a short run of operations, so what
every operation keeps holds along every run of the machine.
-/

namespace Gem5.IGbE

def TxOp.external : TxOp → Bool
  | .processContextDesc _ | .getPacketSize | .getPacketData _ | .pushReady _ _ => false
  | _ => true

def TxOp.onCache : TxOp → Bool
  | .setTail _ | .fetchDescriptors | .fetchComplete _ _ | .writeback _ | .writebackComplete _ _ =>
    true
  | _ => false

inductive TxAct where
  | event (o : TxOp)
  | tick (env : TxEnv) (t : TxTick)

namespace TxDescCacheGlobal

open DescCacheGlobal (Steady Quiet)

variable {cfg : Config} {env : TxEnv} {s t : TxDescCacheGlobal} {d : Desc TxDesc}
  {e : Nat} {o : TxOp} {k : TxTick} {order : List Nat}

def step (cfg : Config) (s : TxDescCacheGlobal) : TxAct → Sim TxDescCacheGlobal
  | .event o => op cfg s o
  | .tick env t => s.tick cfg env t

def Occurs (s : TxDescCacheGlobal) : TxAct → Prop
  | .event o => o.external = true ∧ Possible s o
  | .tick _ _ => True

instance (s : TxDescCacheGlobal) (a : TxAct) : Decidable (Occurs s a) :=
  match a with
  | .event _ => inferInstanceAs (Decidable (_ ∧ _))
  | .tick _ _ => isTrue trivial

section Cases

variable {φ : Type} {fifo : TxFifo φ} {f g : φ}

theorem nextPacket_cases (h : s.nextPacket fifo cfg env f = .ok (t, g)) :
    ∃ n u, s.getPacketSize = .ok (n, u) ∧
      (0 < n ∧ fifo.reserve n f = .ok g ∧ u.getPacketDataGlobal cfg env = .ok t ∨
        g = f ∧ (u.onBase (DescCacheGlobal.writebackGlobal cfg 0) = .ok t ∨ t = u)) := by
  obtain ⟨⟨n, u⟩, hu, h⟩ := bind_eq_ok.mp h
  refine ⟨n, u, hu, ?_⟩
  dsimp only at h
  split at h
  · rename_i hn
    obtain ⟨f', hf, h⟩ := bind_eq_ok.mp h
    obtain ⟨v, hv, h⟩ := map_eq_ok.mp h
    cases h
    exact .inl ⟨hn.1, hf, hv⟩
  · split at h
    · obtain ⟨v, hv, h⟩ := map_eq_ok.mp h
      cases h
      exact .inr ⟨rfl, .inl hv⟩
    · cases h
      exact .inr ⟨rfl, .inr rfl⟩

theorem txStateMachine_cases {en candidate : Bool}
    (h : s.txStateMachine fifo cfg env en candidate f = .ok (t, g)) : t = s ∧ g = f ∨
    (s.hasReadyEthPacket cfg = true ∧ s.pushReadyTo fifo cfg env f = .ok (t, g)) ∨
    (s.hasReadyEthPacket cfg = false ∧ s.pktHdrWaiting = false ∧
      (g = f ∧ (∃ u, s.onBase (DescCacheGlobal.writebackGlobal cfg 0) = .ok u ∧
          u.onBase (DescCacheGlobal.fetchDescriptorsGlobal cfg) = .ok t) ∨
        g = f ∧ s.onBase (DescCacheGlobal.fetchDescriptorsGlobal cfg) = .ok t ∨
        ∃ u, s.processContextDesc env = .ok u ∧ (t = u ∧ g = f ∨
            u.pktHdrWaiting = false ∧ u.nextPacket fifo cfg env f = .ok (t, g)))) := by
  have hsame : (pure (s, f) : Sim _) = .ok (t, g) → t = s ∧ g = f := by
    intro heq
    cases heq
    exact ⟨rfl, rfl⟩
  unfold txStateMachine at h
  split at h
  · exact .inl (hsame h)
  · cases hready : s.hasReadyEthPacket cfg with
    | true =>
      rw [hready] at h
      cases candidate with
      | true => exact .inr (Or.inl ⟨rfl, h⟩)
      | false => exact .inl (hsame h)
    | false =>
      rw [hready] at h
      cases hwait : s.pktHdrWaiting with
      | true =>
        rw [hwait] at h
        exact .inl (hsame h)
      | false =>
        rw [hwait] at h
        obtain ⟨free, _, h⟩ := bind_eq_ok.mp h
        cases free with
        | false => exact .inl (hsame h)
        | true =>
          refine .inr (Or.inr ⟨rfl, rfl, ?_⟩)
          simp only [if_true] at h
          split at h
          · obtain ⟨u, hu, h⟩ := bind_eq_ok.mp h
            obtain ⟨v, hv, h⟩ := map_eq_ok.mp h
            cases h
            exact .inl ⟨rfl, u, hu, hv⟩
          · split at h
            · obtain ⟨v, hv, h⟩ := map_eq_ok.mp h
              cases h
              exact .inr (Or.inl ⟨rfl, hv⟩)
            · obtain ⟨u, hu, h⟩ := bind_eq_ok.mp h
              refine .inr (Or.inr ⟨u, hu, ?_⟩)
              cases huw : u.pktHdrWaiting with
              | true =>
                rw [huw] at h
                cases h
                exact .inl ⟨rfl, rfl⟩
              | false =>
                rw [huw] at h
                exact .inr ⟨rfl, h⟩

theorem getPacketSize_op {n : Nat} (h : s.getPacketSize = .ok (n, t)) :
    op cfg s .getPacketSize = .ok t := by
  unfold op
  rw [h]
  rfl

end Cases

def Ticked (env : TxEnv) (s : TxDescCacheGlobal) : TxOp → Prop
  | .writeback _ | .fetchDescriptors | .getPacketSize => True
  | .processContextDesc env' | .getPacketData env' => env' = env ∧ s.pktHdrWaiting = false
  | .pushReady env' _ => env' = env
  | _ => False

theorem tick_run (h : s.tick cfg env k = .ok t) : Reach (op cfg) (Ticked env) s t := by
  obtain ⟨⟨t, _⟩, htick, rfl⟩ := map_eq_ok.mp h
  rcases txStateMachine_cases htick with ⟨rfl, _⟩ | ⟨_, h⟩ | ⟨_, hwait, h⟩
  · exact Reach.refl _
  · exact Reach.single (a := .pushReady env k.pushOk) rfl (map_eq_ok.mpr ⟨_, h, rfl⟩)
  · rcases h with ⟨_, u, hu, h⟩ | ⟨_, h⟩ | ⟨u, hu, h⟩
    · exact (Reach.single (a := .writeback 0) trivial hu).snoc (a := .fetchDescriptors) trivial h
    · exact Reach.single (a := .fetchDescriptors) trivial h
    · have hfirst : Reach (op cfg) (Ticked env) s u :=
        Reach.single (a := .processContextDesc env) ⟨rfl, hwait⟩ hu
      rcases h with ⟨rfl, _⟩ | ⟨huw, h⟩
      · exact hfirst
      · obtain ⟨n, v, hv, h⟩ := nextPacket_cases h
        have hsecond := hfirst.snoc (a := TxOp.getPacketSize) trivial (getPacketSize_op hv)
        have hvw : v.pktHdrWaiting = false := by
          rcases getPacketSize_cases hv with ⟨_, _, rfl⟩ | ⟨d, rest, _, hcase⟩
          · exact huw
          · rcases hcase with ⟨_, _, rfl⟩ | ⟨_, _, x, _, _, rfl⟩ <;> exact huw
        rcases h with ⟨_, _, h⟩ | ⟨_, h | rfl⟩
        · exact hsecond.snoc (a := .getPacketData env) ⟨rfl, hvw⟩ h
        · exact hsecond.snoc (a := .writeback 0) trivial h
        · exact hsecond

theorem reach_op {allowed : TxDescCacheGlobal → TxAct → Prop}
    {ops : TxDescCacheGlobal → TxOp → Prop} (hevent : ∀ s o, allowed s (.event o) → ops s o)
    (htick : ∀ s env k, allowed s (.tick env k) → ∀ u o, Ticked env u o → ops u o)
    (h : Reach (step cfg) allowed s t) : Reach (op cfg) ops s t := by
  refine h.invariant (P := fun u => Reach (op cfg) ops s u) (Reach.refl s) ?_
  intro u v a hu ha hs
  cases a with
  | event o => exact hu.snoc (hevent u o ha) hs
  | tick env k => exact hu.trans ((tick_run hs).mono (htick u env k ha))

theorem op_quiet (hc : o.onCache = true) (hs : Steady cfg order s.toDescCacheGlobal)
    (ha : Possible s o) (h : op cfg s o = .ok t) :
    ∃ b, Quiet s.toDescCacheGlobal b ∧ t = { s with toDescCacheGlobal := b } := by
  cases o with
  | setTail tail =>
    cases h
    exact ⟨_, Quiet.setTail _ tail, rfl⟩
  | fetchDescriptors =>
    obtain ⟨b, hb, rfl⟩ := onBase_eq_ok.mp h
    exact ⟨b, Quiet.fetchDescriptorsGlobal hs.pools hb, rfl⟩
  | fetchComplete e data =>
    obtain ⟨b, hb, rfl, _⟩ := fetchComplete_eq_ok.mp h
    exact ⟨b, Quiet.fetchComplete hs.pools ha.1 ha.2 hb, rfl⟩
  | writeback mask =>
    obtain ⟨b, hb, rfl⟩ := onBase_eq_ok.mp h
    exact ⟨b, Quiet.writebackGlobal hb, rfl⟩
  | writebackComplete e f =>
    obtain ⟨b, hb, rfl⟩ := onBase_eq_ok.mp h
    exact ⟨b, Quiet.writebackComplete hs.pools ha hb, rfl⟩
  | processContextDesc env | headerComplete env | getPacketSize | getPacketData env
  | pktComplete env e | pushReady env ok => cases hc

end TxDescCacheGlobal

end Gem5.IGbE
