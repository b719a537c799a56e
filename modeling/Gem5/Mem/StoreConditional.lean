import Gem5.Shared.Reachability
import Gem5.Shared.Sim
import Mathlib.Algebra.Order.Ring.Nat
import Mathlib.Data.List.Nodup

/-!
# Load-locked and store-conditional in memory

The memory keeps for each context the granule of its last load-locked. A write forgets the records
of the granule that it starts in. A log beside the state says what has been locked and written.
-/

open List

namespace Gem5.Mem

/-- `LockedAddr::mask`. -/
def lockMask (paddr : Nat) : Nat := paddr / 16 * 16

structure LockedAddr where
  addr : Nat
  contextId : Nat
  deriving DecidableEq

/-- `ignored`: a cache responds, a clean eviction, or a packet that only invalidates or cleans. -/
inductive MemOp where
  | ignored | swapReq | read | write
  deriving DecidableEq

/-- `data` has the bytes to write; an atomic operation is applied to as many bytes. -/
structure MemAccess where
  cmd : MemOp
  isLLSC : Bool := false
  contextId : Nat := 0
  addr : Nat
  data : List UInt8 := []
  atomicOp : Option (List UInt8 → List UInt8) := none
  condition : Option (List UInt8) := none

inductive LockEvent where
  | locked (contextId granule : Nat)
  | wrote (addr size : Nat)

structure AbstractMemory where
  mem : Nat → UInt8
  lockedAddrList : List LockedAddr := []
  log : List LockEvent := []

def Touches (addr size granule : Nat) : Prop := ∃ i < size, lockMask (addr + i) = granule

instance {addr size granule : Nat} : Decidable (Touches addr size granule) :=
  inferInstanceAs (Decidable (∃ i < size, _))

/-- The last load-locked of the context was to the granule, of which no byte was written since. -/
def reserved (c granule : Nat) : List LockEvent → Bool
  | [] => false
  | .locked d g :: log => if d = c then g = granule else reserved c granule log
  | .wrote addr size :: log => !decide (Touches addr size granule) && reserved c granule log

namespace AbstractMemory

def modifyRecord (c paddr : Nat) : List LockedAddr → Option (List LockedAddr)
  | [] => none
  | r :: l =>
    if r.contextId = c then some (⟨lockMask paddr, c⟩ :: l)
    else (modifyRecord c paddr l).map (r :: ·)

def trackLoadLocked (c paddr : Nat) (l : List LockedAddr) : List LockedAddr :=
  (modifyRecord c paddr l).getD (⟨lockMask paddr, c⟩ :: l)

def allowStore (l : List LockedAddr) (pkt : MemAccess) : Bool :=
  !pkt.isLLSC || l.any fun r => r.addr = lockMask pkt.addr && r.contextId = pkt.contextId

def checkLockedAddrList (l : List LockedAddr) (pkt : MemAccess) : Bool × List LockedAddr :=
  (allowStore l pkt, if allowStore l pkt then l.filter (·.addr ≠ lockMask pkt.addr) else l)

def writeOK (l : List LockedAddr) (pkt : MemAccess) : Bool × List LockedAddr :=
  if l.isEmpty then (!pkt.isLLSC, l) else checkLockedAddrList l pkt

def load (s : AbstractMemory) (addr size : Nat) : List UInt8 :=
  (List.range size).map fun i => s.mem (addr + i)

def store (s : AbstractMemory) (addr : Nat) (data : List UInt8) : AbstractMemory :=
  { s with
    mem := fun a => if addr ≤ a then (data[a - addr]?).getD (s.mem a) else s.mem a
    log := .wrote addr data.length :: s.log }

/-- What `access` writes for a `SwapReq`. -/
def swapped (s : AbstractMemory) (pkt : MemAccess) : Option (List UInt8) :=
  match pkt.atomicOp with
  | some op => some (op (s.load pkt.addr pkt.data.length))
  | none =>
    if pkt.condition.all (· = s.load pkt.addr pkt.data.length) then some pkt.data else none

def access (s : AbstractMemory) (pkt : MemAccess) : AbstractMemory :=
  match pkt.cmd with
  | .ignored => s
  | .swapReq => ((s.swapped pkt).map (s.store pkt.addr)).getD s
  | .read =>
    if pkt.isLLSC then
      { s with
        lockedAddrList := trackLoadLocked pkt.contextId pkt.addr s.lockedAddrList
        log := .locked pkt.contextId (lockMask pkt.addr) :: s.log }
    else s
  | .write =>
    let (ok, l) := writeOK s.lockedAddrList pkt
    if ok then store { s with lockedAddrList := l } pkt.addr pkt.data
    else { s with lockedAddrList := l }

def step (s : AbstractMemory) (pkt : MemAccess) : Sim AbstractMemory := .ok (s.access pkt)

/-- Only a write that starts in a reserved granule writes to it. -/
def Contained (s : AbstractMemory) (pkt : MemAccess) : Prop :=
  ∀ r ∈ s.lockedAddrList,
    (pkt.cmd = .write → allowStore s.lockedAddrList pkt = true →
      Touches pkt.addr pkt.data.length r.addr → lockMask pkt.addr = r.addr) ∧
      ∀ data, pkt.cmd = .swapReq → s.swapped pkt = some data → ¬Touches pkt.addr data.length r.addr

structure Inv (s : AbstractMemory) : Prop where
  oneEach : (s.lockedAddrList.map (·.contextId)).Nodup
  sound : ∀ r ∈ s.lockedAddrList, reserved r.contextId r.addr s.log = true

variable {s : AbstractMemory} {pkt : MemAccess} {l : List LockedAddr} {r : LockedAddr} {c a : Nat}

theorem writeOK_eq (l : List LockedAddr) (pkt : MemAccess) :
    writeOK l pkt = checkLockedAddrList l pkt := by
  cases l with
  | nil => simp [writeOK, checkLockedAddrList, allowStore]
  | cons r l => rfl

theorem access_write (hcmd : pkt.cmd = .write) :
    s.access pkt = if allowStore s.lockedAddrList pkt then
      store { s with lockedAddrList := s.lockedAddrList.filter (·.addr ≠ lockMask pkt.addr) }
        pkt.addr pkt.data
      else s := by
  rw [access, hcmd]
  simp only [writeOK_eq, checkLockedAddrList]
  split <;> rfl

theorem trackLoadLocked_spec (h : (l.map (·.contextId)).Nodup) :
    ((trackLoadLocked c a l).map (·.contextId)).Nodup ∧
      ∀ r ∈ trackLoadLocked c a l, r = ⟨lockMask a, c⟩ ∨ r ∈ l ∧ r.contextId ≠ c := by
  have hmodify : match modifyRecord c a l with
      | none => ∀ r ∈ l, r.contextId ≠ c
      | some k => k.map (·.contextId) = l.map (·.contextId) ∧
          ∀ r ∈ k, r = ⟨lockMask a, c⟩ ∨ r ∈ l ∧ r.contextId ≠ c := by
    induction l with
    | nil => exact fun r hr => nomatch hr
    | cons r l ih =>
      rw [modifyRecord]
      split <;> grind
  unfold trackLoadLocked
  cases hk : modifyRecord c a l with
  | none =>
    exact ⟨nodup_cons.mpr ⟨by grind, h⟩, by grind⟩
  | some k =>
    rw [hk] at hmodify
    exact ⟨(hmodify.1 ▸ h : (k.map (·.contextId)).Nodup), hmodify.2⟩

theorem Inv.locked (h : s.Inv) : Inv { s with
    lockedAddrList := trackLoadLocked c a s.lockedAddrList
    log := .locked c (lockMask a) :: s.log } where
  oneEach := (trackLoadLocked_spec h.oneEach).1
  sound r hr := by
    rcases (trackLoadLocked_spec h.oneEach).2 r hr with rfl | ⟨hr, hne⟩
    · simp [reserved]
    · rw [reserved, if_neg hne.symm]
      exact h.sound r hr

theorem Inv.store {data : List UInt8} (h : s.Inv)
    (hdata : ∀ r ∈ s.lockedAddrList, ¬Touches a data.length r.addr) : (s.store a data).Inv where
  oneEach := h.oneEach
  sound r hr := by
    change reserved r.contextId r.addr (.wrote a data.length :: s.log) = true
    rw [reserved, decide_eq_false (hdata r hr)]
    exact h.sound r hr

theorem Inv.filter (h : s.Inv) (p : LockedAddr → Bool) :
    Inv { s with lockedAddrList := s.lockedAddrList.filter p } where
  oneEach := h.oneEach.sublist (filter_sublist.map _)
  sound r hr := h.sound r (mem_filter.mp hr).1

attribute [local simp] AbstractMemory.access

theorem Inv.access (h : s.Inv) (ha : s.Contained pkt) : (s.access pkt).Inv := by
  cases hcmd : pkt.cmd with
  | ignored => simpa [hcmd] using h
  | read =>
    cases hllsc : pkt.isLLSC with
    | false => simpa [hcmd, hllsc] using h
    | true => simpa [hcmd, hllsc] using h.locked
  | swapReq =>
    cases hswap : s.swapped pkt with
    | none => simpa [hcmd, hswap] using h
    | some data =>
      simpa [hcmd, hswap] using
        h.store fun r hr => (ha r hr).2 data hcmd hswap
  | write =>
    rw [access_write hcmd]
    split
    · rename_i hok
      refine (h.filter _).store fun r hr ht => ?_
      obtain ⟨hr, hne⟩ := mem_filter.mp hr
      exact of_decide_eq_true hne ((ha r hr).1 hcmd hok ht).symm
    · exact h

/-- If only writes that start in a reserved granule write to it, a store-conditional succeeds only
with a reservation. A failing one changes nothing, and each context has at most one record. -/
theorem store_conditional_sound (mem : Nat → UInt8) (s : AbstractMemory)
    (hr : Reach step Contained ⟨mem, [], []⟩ s) :
    (∀ pkt : MemAccess, pkt.cmd = .write → pkt.isLLSC = true →
      ((writeOK s.lockedAddrList pkt).1 = true →
        reserved pkt.contextId (lockMask pkt.addr) s.log = true) ∧
      ((writeOK s.lockedAddrList pkt).1 = false → s.access pkt = s)) ∧
    (s.lockedAddrList.map (·.contextId)).Nodup := by
  have hinv : s.Inv := hr.invariant (P := Inv) ⟨nodup_nil, fun _ h => nomatch h⟩
    fun h ha hs => Except.ok.inj hs ▸ h.access ha
  refine ⟨fun pkt hcmd hllsc => ⟨fun hok => ?_, fun hfail => ?_⟩, hinv.oneEach⟩
  · rw [writeOK_eq, checkLockedAddrList, allowStore, hllsc] at hok
    obtain ⟨r, hmem, hrec⟩ := any_eq_true.mp hok
    obtain ⟨haddr, hctx⟩ : r.addr = lockMask pkt.addr ∧ r.contextId = pkt.contextId := by
      simpa using hrec
    exact haddr ▸ hctx ▸ hinv.sound r hmem
  · rw [writeOK_eq, checkLockedAddrList] at hfail
    rw [access_write hcmd, if_neg (Bool.eq_false_iff.mp hfail)]

def loadLocked16 : MemAccess := { cmd := .read, isLLSC := true, addr := 16 }

def storeConditional16 : MemAccess := { cmd := .write, isLLSC := true, addr := 16, data := [1] }

def write32 : MemAccess := { cmd := .write, addr := 32, data := [7] }

/-- The byte written between is of another granule. -/
theorem store_conditional_sound_kept : reserved 0 16
    (((⟨fun _ => 0, [], []⟩ : AbstractMemory).access loadLocked16).access write32).log = true := by
  have hlocked : Reach step Contained ⟨fun _ => 0, [], []⟩ _ :=
    .single (a := loadLocked16) (fun _ h => nomatch h) rfl
  refine ((store_conditional_sound _ _ (hlocked.snoc (a := write32) ?_ rfl)).1
    storeConditional16 rfl rfl).1 rfl
  intro r hr
  rw [mem_singleton.mp hr]
  exact ⟨fun _ _ => by decide, fun _ h => nomatch h⟩

/-- A write of two bytes from address 15 on does not clear the reservation of its second byte. -/
theorem crossing_write_missed :
    let s := ((⟨fun _ => 0, [], []⟩ : AbstractMemory).access loadLocked16).access
      { cmd := .write, addr := 15, data := [7, 7] }
    (writeOK s.lockedAddrList storeConditional16).1 = true ∧
      reserved 0 (lockMask 16) s.log = false := by decide

end AbstractMemory

end Gem5.Mem
