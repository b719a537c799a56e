import Gem5.DTA.RxSide

/-!
# The packets of the host's jobs

A job of the host is a first packet and the continuation packets that its buffers need.
The host sends the packets of its jobs one after another; `position` of a job is where its
packets begin in this stream.
-/

namespace Gem5.DTA

open List

def bufferWords (first : JobPacket) (rest : List JobPacket) : List Nat :=
  first.words.drop 2 ++ rest.flatMap JobPacket.words

structure HostJob where
  first : JobPacket
  rest : List JobPacket
  one_le : 1 ≤ first.word 1
  le_max : first.word 1 ≤ dtaMaxMbufNum
  rest_length : rest.length =
    (first.word 1 - rxFirstJobPacketNumMbufAddr + 7) / restJobPacketNumMbufAddr
  nonzero : ∀ addr ∈ (bufferWords first rest).take (first.word 1), addr ≠ 0

namespace HostJob

variable {job : HostJob} {m : Nat} {pkt : JobPacket}

def packets (job : HostJob) : List JobPacket := job.first :: job.rest

def nbPkts (job : HostJob) : Nat := job.first.word 1

/-- The buffers in the first `m` packets of the job. -/
def addressesIn (job : HostJob) : Nat → List Nat
  | 0 => []
  | m + 1 => (bufferWords job.first (job.rest.take m)).take job.nbPkts

theorem packets_length : job.packets.length = job.rest.length + 1 := rfl

theorem flatMap_words_length (l : List JobPacket) :
    (l.flatMap JobPacket.words).length = 8 * l.length := by
  induction l with
  | nil => rfl
  | cons pkt l ih =>
    rw [flatMap_cons, length_append, pkt.size, length_cons]
    omega

theorem bufferWords_length (first : JobPacket) (rest : List JobPacket) :
    (bufferWords first rest).length = 6 + 8 * rest.length := by
  rw [bufferWords, length_append, length_drop, first.size, flatMap_words_length]

theorem addressesIn_length (hm : m < job.packets.length) :
    (job.addressesIn (m + 1)).length = min job.nbPkts (6 + 8 * m) := by
  rw [packets_length] at hm
  rw [addressesIn, length_take, bufferWords_length, length_take]
  omega

theorem addressesIn_all : (job.addressesIn job.packets.length).length = job.nbPkts := by
  have hrest := job.rest_length
  simp only [rxFirstJobPacketNumMbufAddr, restJobPacketNumMbufAddr] at hrest
  rw [packets_length, addressesIn_length (by rw [packets_length]; omega)]
  unfold nbPkts
  omega

theorem addressesIn_lt (hm : m + 1 < job.packets.length) :
    (job.addressesIn (m + 1)).length < job.nbPkts := by
  have hrest := job.rest_length
  simp only [rxFirstJobPacketNumMbufAddr, restJobPacketNumMbufAddr] at hrest
  rw [addressesIn_length (by omega)]
  rw [packets_length] at hm
  unfold nbPkts
  omega

theorem addressesIn_one : job.addressesIn 1 =
      (job.first.words.drop 2).take (min job.nbPkts rxFirstJobPacketNumMbufAddr) := by
  have hlen : (job.first.words.drop 2).length = rxFirstJobPacketNumMbufAddr := by
    rw [length_drop, job.first.size]
    rfl
  rw [addressesIn, take_zero, bufferWords, flatMap_nil, append_nil, ← hlen, ← take_eq_take_min]

theorem addressesIn_succ (hpkt : job.packets[m + 1]? = some pkt) :
    job.addressesIn (m + 2) = job.addressesIn (m + 1) ++
      pkt.words.take
        (min restJobPacketNumMbufAddr (job.nbPkts - (job.addressesIn (m + 1)).length)) := by
  have hrest : job.rest[m]? = some pkt := hpkt
  have hm := (List.getElem?_eq_some_iff.mp hrest).1
  have hwords : bufferWords job.first (job.rest.take (m + 1)) =
      bufferWords job.first (job.rest.take m) ++ pkt.words := by
    unfold bufferWords
    rw [take_add_one, hrest]
    simp
  have hlen : (bufferWords job.first (job.rest.take m)).length = 6 + 8 * m := by
    rw [bufferWords_length, length_take]
    omega
  rw [addressesIn_length (by rw [packets_length]; omega)]
  show (bufferWords _ (job.rest.take (m + 1))).take _ = (bufferWords _ _).take _ ++ _
  rw [hwords, take_append, hlen]
  congr 1
  have hcount : min restJobPacketNumMbufAddr (job.nbPkts - min job.nbPkts (6 + 8 * m)) =
      min (job.nbPkts - (6 + 8 * m)) pkt.words.length := by
    rw [pkt.size]
    unfold restJobPacketNumMbufAddr
    omega
  rw [hcount, ← take_eq_take_min]

theorem addressesIn_nonzero : ∀ addr ∈ job.addressesIn (m + 1), addr ≠ 0 := by
  intro addr haddr
  refine job.nonzero addr ?_
  have hinit : bufferWords job.first (job.rest.take m) <+: bufferWords job.first job.rest := by
    unfold bufferWords
    rw [prefix_append_right_inj]
    exact ⟨(job.rest.drop m).flatMap JobPacket.words, by
      rw [← flatMap_append, take_append_drop]⟩
  exact (hinit.take job.nbPkts).subset haddr

theorem first_nonzero : ∀ addr ∈ (job.first.words.drop 2).take
    (min job.nbPkts rxFirstJobPacketNumMbufAddr), addr ≠ 0 := by
  rw [← addressesIn_one]
  exact addressesIn_nonzero

theorem rest_nonzero (hpkt : job.packets[m + 1]? = some pkt) : ∀ addr ∈ pkt.words.take
    (min restJobPacketNumMbufAddr (job.nbPkts - (job.addressesIn (m + 1)).length)), addr ≠ 0 := by
  intro addr haddr
  refine (addressesIn_nonzero : ∀ addr ∈ job.addressesIn (m + 1 + 1), addr ≠ 0) addr ?_
  rw [addressesIn_succ hpkt]
  exact mem_append_right _ haddr

end HostJob

section Stream

variable {jobs : List HostJob} {job : HostJob} {i j n : Nat} {pkt : JobPacket}

def stream (jobs : List HostJob) : List JobPacket := jobs.flatMap HostJob.packets

/-- Where the packets of job `i` begin. -/
def position (jobs : List HostJob) (i : Nat) : Nat := (stream (jobs.take i)).length

/-- How many packets of job `i` are among the first `n` packets of the stream. -/
def packetsIn (jobs : List HostJob) (n i : Nat) (job : HostJob) : Nat :=
  min job.packets.length (n - position jobs i)

theorem position_succ (h : jobs[i]? = some job) :
    position jobs (i + 1) = position jobs i + job.packets.length := by
  unfold position stream
  rw [take_add_one, h]
  simp

theorem position_mono (h : i ≤ j) : position jobs i ≤ position jobs j := by
  have hinit : jobs.take i <+: jobs.take j := take_prefix_take_left h
  obtain ⟨rest, hrest⟩ := hinit
  unfold position stream
  rw [← hrest, flatMap_append, length_append]
  exact Nat.le_add_right _ _

theorem position_end_le (h : jobs[i]? = some job) (hij : i < j) :
    position jobs i + job.packets.length ≤ position jobs j := by
  rw [← position_succ h]
  exact position_mono hij

theorem position_lt (h : jobs[i]? = some job) (hij : i < j) :
    position jobs i < position jobs j := by
  have hend := position_end_le h hij
  rw [HostJob.packets_length] at hend
  omega

theorem stream_getElem? : ∀ {jobs : List HostJob} {n : Nat}, (stream jobs)[n]? = some pkt →
    ∃ i job, jobs[i]? = some job ∧ position jobs i ≤ n ∧
      job.packets[n - position jobs i]? = some pkt := by
  intro jobs
  induction jobs with
  | nil => exact fun h => nomatch h
  | cons job rest ih =>
    intro n h
    have hstream : stream (job :: rest) = job.packets ++ stream rest := flatMap_cons ..
    rw [hstream, List.getElem?_append] at h
    split at h
    · exact ⟨0, job, rfl, Nat.zero_le n, h⟩
    · obtain ⟨i, job', hjob, hle, hpkt⟩ := ih h
      have hposition : position (job :: rest) (i + 1) = job.packets.length + position rest i := by
        show (stream (job :: rest.take i)).length = _
        unfold position stream
        rw [flatMap_cons, length_append]
      refine ⟨i + 1, job', hjob, by omega, ?_⟩
      rwa [hposition, ← Nat.sub_sub]

theorem stream_packet (hjob : jobs[i]? = some job) (hle : position jobs i ≤ n)
    (hlt : n < position jobs i + job.packets.length) (hpkt : (stream jobs)[n]? = some pkt) :
    job.packets[n - position jobs i]? = some pkt := by
  obtain ⟨j, other, hother, hle', hget⟩ := stream_getElem? hpkt
  have hlt' := (List.getElem?_eq_some_iff.mp hget).1
  obtain rfl : i = j := by
    rcases Nat.lt_trichotomy i j with hij | heq | hji
    · have hend := position_end_le hjob hij
      omega
    · exact heq
    · have hend := position_end_le hother hji
      omega
  obtain rfl := Option.mem_unique hjob hother
  exact hget

theorem packetsIn_own (hle : position jobs i ≤ n)
    (hpkt : job.packets[n - position jobs i]? = some pkt) :
    packetsIn jobs n i job = n - position jobs i ∧
      packetsIn jobs (n + 1) i job = n - position jobs i + 1 := by
  have hlt := (List.getElem?_eq_some_iff.mp hpkt).1
  unfold packetsIn
  omega

section

variable {other : HostJob} (hjob : jobs[i]? = some job) (hle : position jobs i ≤ n)
  (hpkt : job.packets[n - position jobs i]? = some pkt) (hother : jobs[j]? = some other)
  (hne : j ≠ i)
include hjob hle hpkt hother hne

theorem position_lt_of_ne (hbegun : position jobs j < n + 1) : position jobs j < n := by
  have hlt := (List.getElem?_eq_some_iff.mp hpkt).1
  rcases Nat.lt_or_gt_of_ne hne with hji | hij
  · have hbefore := position_lt hother hji
    omega
  · have hend := position_end_le hjob hij
    omega

theorem packetsIn_other : packetsIn jobs (n + 1) j other = packetsIn jobs n j other := by
  have hlt := (List.getElem?_eq_some_iff.mp hpkt).1
  unfold packetsIn
  rcases Nat.lt_or_gt_of_ne hne with hji | hij
  · have hend := position_end_le hother hji
    omega
  · have hend := position_end_le hjob hij
    omega

end

theorem drop_take_succ {m : Nat} (hle : n ≤ m) (hpkt : (stream jobs)[m]? = some pkt) :
    ((stream jobs).take (m + 1)).drop n = ((stream jobs).take m).drop n ++ [pkt] := by
  have hlt := (List.getElem?_eq_some_iff.mp hpkt).1
  have hlen : n ≤ ((stream jobs).take m).length := by
    rw [length_take]
    omega
  rw [take_add_one, hpkt, drop_append_of_le_length hlen]
  rfl

theorem front_of_queue {m : Nat} {rest : List JobPacket}
    (hdrop : ((stream jobs).take m).drop n = pkt :: rest) :
    n < m ∧ (stream jobs)[n]? = some pkt ∧ rest = ((stream jobs).take m).drop (n + 1) := by
  have hget : ((stream jobs).take m)[n]? = some pkt := by
    rw [← add_zero n, ← List.getElem?_drop, hdrop]
    rfl
  have hrest : rest = ((stream jobs).take m).drop (n + 1) := by
    rw [← tail_drop, hdrop]
    rfl
  rw [List.getElem?_take] at hget
  split at hget
  · rename_i hlt
    exact ⟨hlt, hget, hrest⟩
  · cases hget

end Stream

end Gem5.DTA
