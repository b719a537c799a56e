import Gem5.Mem.SnoopFilter

/-!
# Snoops sent by a crossbar

A snoop goes to the ports that the snoop filter names, except the one it came from. A packet with
a prefetch destination is also sent to that port. The destination is compared with the ids of the
receivers and then taken as a position among the snooping ports.
-/

namespace Gem5.Mem

open List

structure CoherentXBar where
  cpuSidePorts : List ResponsePort

namespace CoherentXBar

variable {x : CoherentXBar} {exclude : Option Nat} {dest : Int} {dests : List ResponsePort}
  {p : ResponsePort}

/-- `CoherentXBar::init`. -/
def snoopPorts (x : CoherentXBar) : List ResponsePort := x.cpuSidePorts.filter (·.isSnooping)

/-- The receivers in order; `exclude` is `none` for `InvalidPortID`. -/
def forwardTiming (x : CoherentXBar) (exclude : Option Nat) (dest : Int)
    (dests : List ResponsePort) : Sim (List ResponsePort) :=
  let sent := dests.filter fun p => exclude ≠ some p.id
  let find := sent.any fun p => dest = p.id
  if !find && dest > -1 then
    match x.snoopPorts[dest.toNat]? with
    | some p => .ok (sent ++ [p])
    | none => .error .outOfBounds
  else .ok sent

structure FansOut (x : CoherentXBar) (exclude : Option Nat) (dest : Int)
    (dests sent : List ResponsePort) : Prop where
  returns : x.forwardTiming exclude dest dests = .ok sent
  once : sent.Nodup
  notSource : ∀ p ∈ sent, exclude ≠ some p.id
  toAll : ∀ p ∈ dests, exclude ≠ some p.id → p ∈ sent
  noOther : ∀ p ∈ sent, p ∈ dests ∨ p ∈ x.snoopPorts ∧ dest = p.id

theorem mem_sent : p ∈ dests.filter (fun p => exclude ≠ some p.id) ↔
    p ∈ dests ∧ exclude ≠ some p.id := by
  rw [mem_filter, decide_eq_true_iff]

theorem find_iff : (dests.filter fun p => exclude ≠ some p.id).any (fun p => dest = p.id) = true ↔
    ∃ p ∈ dests, dest = p.id ∧ exclude ≠ some p.id := by
  simp only [any_eq_true, mem_sent, decide_eq_true_iff]
  exact exists_congr fun p => ⟨fun h => ⟨h.1.1, h.2, h.1.2⟩, fun h => ⟨⟨h.1, h.2.2⟩, h.2.1⟩⟩

theorem FansOut.filtered (hnodup : dests.Nodup)
    (h : x.forwardTiming exclude dest dests = .ok (dests.filter fun p => exclude ≠ some p.id)) :
    FansOut x exclude dest dests (dests.filter fun p => exclude ≠ some p.id) where
  returns := h
  once := hnodup.filter _
  notSource _ hp := (mem_sent.mp hp).2
  toAll _ hp hne := mem_sent.mpr ⟨hp, hne⟩
  noOther _ hp := .inl (mem_sent.mp hp).1

/-- The snoop is sent as it should be exactly if there is no prefetch destination, or it is among
the receivers, or the port at its position has its id and is not the source. -/
theorem snoop_fans_out (x : CoherentXBar) (exclude : Option Nat) (dest : Int)
    (dests : List ResponsePort) (hdest : -1 ≤ dest) (hnodup : dests.Nodup) :
    (∃ sent, FansOut x exclude dest dests sent) ↔ dest = -1 ∨
      (∃ p ∈ dests, dest = p.id ∧ exclude ≠ some p.id) ∨
      ∃ p, x.snoopPorts[dest.toNat]? = some p ∧ dest = p.id ∧ exclude ≠ some p.id := by
  by_cases hnone : dest = -1
  · refine iff_of_true ⟨_, .filtered hnodup ?_⟩ (.inl hnone)
    rw [forwardTiming, hnone, if_neg (by simp)]
  by_cases hfind : ∃ p ∈ dests, dest = p.id ∧ exclude ≠ some p.id
  · refine iff_of_true ⟨_, .filtered hnodup ?_⟩ (.inr (.inl hfind))
    rw [forwardTiming, find_iff.mpr hfind, if_neg (by simp)]
  rw [or_iff_right hnone, or_iff_right hfind]
  have hsent : x.forwardTiming exclude dest dests = match x.snoopPorts[dest.toNat]? with
      | some p => .ok (dests.filter (fun p => exclude ≠ some p.id) ++ [p])
      | none => .error .outOfBounds := by
    rw [forwardTiming, if_pos (by grind)]
  constructor
  · rintro ⟨sent, h⟩
    have hreturns := h.returns
    rw [hsent] at hreturns
    split at hreturns
    · rename_i p hp
      cases hreturns
      have hmem : p ∈ dests.filter (fun p => exclude ≠ some p.id) ++ [p] := by simp
      have hnew : p ∉ dests := fun hin => (nodup_append.mp h.once).2.2 p
        (mem_sent.mpr ⟨hin, h.notSource p hmem⟩) p (mem_singleton_self p) rfl
      exact ⟨p, hp, ((h.noOther p hmem).resolve_left hnew).2, h.notSource p hmem⟩
    · cases hreturns
  · rintro ⟨p, hp, hid, hne⟩
    rw [hp] at hsent
    have hnew : p ∉ dests := fun hin => hfind ⟨p, hin, hid, hne⟩
    refine ⟨_, hsent, ?_, ?_, ?_, ?_⟩
    · refine nodup_append.mpr ⟨hnodup.filter _, nodup_singleton p, ?_⟩
      rintro q hq r hr rfl
      exact hnew (mem_singleton.mp hr ▸ (mem_sent.mp hq).1)
    · exact fun q hq => (mem_append.mp hq).elim (fun hq => (mem_sent.mp hq).2) (by grind)
    · exact fun q hq hnq => mem_append_left _ (mem_sent.mpr ⟨hq, hnq⟩)
    · intro q hq
      rcases mem_append.mp hq with hq | hq
      · exact .inl (mem_sent.mp hq).1
      · rw [mem_singleton.mp hq]
        exact .inr ⟨mem_of_getElem? hp, hid⟩

/-- Three ports of which the first does not snoop. -/
def threePorts : CoherentXBar := ⟨[⟨0, false⟩, ⟨1, true⟩, ⟨2, true⟩]⟩

theorem snoop_fans_out_found : ∃ sent, FansOut threePorts none 1 [⟨1, true⟩] sent :=
  (snoop_fans_out threePorts none 1 [⟨1, true⟩] (by decide) (by decide)).mpr
    (.inr (.inl ⟨⟨1, true⟩, by decide⟩))

/-- The snoop for port 1 is sent to port 2, which sent it. -/
theorem snoop_sent_back : threePorts.forwardTiming (some 2) 1 [] = .ok [⟨2, true⟩] := by decide

end CoherentXBar

end Gem5.Mem
