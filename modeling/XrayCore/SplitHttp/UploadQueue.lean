/-
  XrayCore.SplitHttp.UploadQueue

  The queue that brings the packets of an upload back into order.

  Requests push their packets into a channel, each in its own goroutine, and one
  reader takes them out into a heap by sequence number.  A step of the machine is
  what happens between two points where goroutines can meet: a push that passes its
  check, a send, the beginning of a read, a receive, one turn of the loop of a read.

  The bytes read are a prefix of the stream, as long as no read is cut short while
  the heap holds a second packet of the number being read (`Undoubled`); the heap
  never outgrows its bound.
-/

import XrayCore.Bytes.Slice
import XrayCore.Heap.Binary
import XrayCore.Machine.Run

namespace XrayCore.SplitHttp

open Relation List Option
open Heap Machine

/-! ## The queue -/

/-- `Packet`.  `ρ` are the connections of a streamed upload, which needs no order: such a
    packet only hands its connection over. -/
structure Packet (ρ : Type) where
  reader : Option ρ
  payload : Bytes
  seq : UInt64

variable {ρ : Type}

def Packet.key (p : Packet ρ) : ℕ := p.seq.toNat

/-- `uploadHeap`. -/
abbrev UploadHeap (ρ : Type) := MinHeap (Packet.key : Packet ρ → ℕ)

/-- Where the reader stands: outside, at one of the two selects, or in the loop, with the
    length of the buffer of its call. -/
inductive Phase where
  | idle
  | first (n : ℕ)
  | loop (n : ℕ)
  | wait (n : ℕ)
deriving DecidableEq

/-- `uploadQueue`, with the pushes that wait for room in the channel, and all that the
    calls of `Read` have returned from packets. -/
structure UploadQueue (ρ : Type) where
  reader : Option ρ
  pushing : List (Packet ρ)
  pushedPackets : List (Packet ρ)
  heap : UploadHeap ρ
  nextSeq : UInt64
  maxPackets : ℕ
  closed : Bool
  phase : Phase
  output : Bytes

/-- `NewUploadQueue`. -/
def UploadQueue.new (maxPackets : ℕ) : UploadQueue ρ where
  reader := none
  pushing := []
  pushedPackets := []
  heap := .empty
  nextSeq := 0
  maxPackets := maxPackets
  closed := false
  phase := .idle
  output := []

/-- A step of the queue: a call of `Push` up to its select, and the two ways out of it for
    one of the calls there; `Close`; the beginning of a `Read`, what it receives or the
    end it sees at a select, and a turn of its loop. -/
inductive Action (ρ : Type) where
  | push (p : Packet ρ)
  | send (i : ℕ)
  | refuse (i : ℕ)
  | close
  | read (n : ℕ)
  | receive
  | eof
  | pop

namespace UploadQueue

/-- Does a reader wait at a select? -/
def waiting (q : UploadQueue ρ) : Bool :=
  match q.phase with
  | .first _ => true
  | .wait _ => true
  | _ => false

/-- A buffered place is free, or a reader waits for just this packet. -/
def hasRoom (q : UploadQueue ρ) : Bool :=
  q.pushedPackets.length < q.maxPackets || (q.pushedPackets.isEmpty && q.waiting)

/-- A packet whose turn it is, read into a buffer of `n` bytes: what is left of it goes back
    into the heap. -/
def consume (q : UploadQueue ρ) (n : ℕ) (p : Packet ρ) (heap : UploadHeap ρ) : UploadQueue ρ :=
  let k := min n p.payload.length
  let q := { q with output := q.output ++ p.payload.take k, phase := .idle }
  if k < p.payload.length then { q with heap := heap.push { p with payload := p.payload.drop k } }
  else { q with heap, nextSeq := p.seq + 1 }

/-- A turn of the loop of `Read`. -/
def turn (q : UploadQueue ρ) (n : ℕ) : UploadQueue ρ :=
  match q.heap.pop with
  | none => { q with phase := .idle }
  | some (p, heap) =>
    if p.seq = q.nextSeq then q.consume n p heap
    else if p.seq > q.nextSeq then
      -- too large: the call fails, and the packet taken out is lost
      if heap.size > q.maxPackets then { q with heap, phase := .idle }
      else { q with heap := heap.push p, phase := .wait n }
    else { q with heap }

def step (q : UploadQueue ρ) : Action ρ → Option (UploadQueue ρ)
  | .push p =>
    -- with a connection here already it fails, else it puts its own here if it has one
    if q.reader.isSome then some q
    else some { q with reader := p.reader, pushing := p :: q.pushing }
  | .send i =>
    match q.pushing[i]? with
    | none => none
    | some p =>
      if q.hasRoom then
        some { q with pushing := q.pushing.eraseIdx i, pushedPackets := q.pushedPackets ++ [p] }
      else none
  | .refuse i => if q.closed then some { q with pushing := q.pushing.eraseIdx i } else none
  | .close => some { q with closed := true }
  | .read n =>
    match q.phase with
    | .idle =>
      -- a connection is read instead, and a closed queue is at its end
      if q.reader.isSome || q.closed then some q
      else some { q with phase := if q.heap.size = 0 then .first n else .loop n }
    | _ => none
  | .receive =>
    match q.phase, q.pushedPackets with
    | .first n, p :: rest =>
      if p.reader.isSome then some { q with pushedPackets := rest, phase := .idle }
      else some { q with pushedPackets := rest, heap := q.heap.push p, phase := .loop n }
    | .wait n, p :: rest =>
      some { q with pushedPackets := rest, heap := q.heap.push p, phase := .loop n }
    | _, _ => none
  | .eof => if q.closed && q.waiting then some { q with phase := .idle } else none
  | .pop =>
    match q.phase with
    | .loop n => some (q.turn n)
    | _ => none

/-- What a step can do, without the conditions that only decide when it can be taken. -/
inductive Changes (q : UploadQueue ρ) : Action ρ → UploadQueue ρ → Prop where
  | stay (action : Action ρ) : Changes q action q
  | push (p : Packet ρ) (hreader : q.reader = none) :
      Changes q (.push p) { q with reader := p.reader, pushing := p :: q.pushing }
  | send (i : ℕ) (p : Packet ρ) (hp : p ∈ q.pushing) :
      Changes q (.send i)
        { q with pushing := q.pushing.eraseIdx i, pushedPackets := q.pushedPackets ++ [p] }
  | refuse (i : ℕ) : Changes q (.refuse i) { q with pushing := q.pushing.eraseIdx i }
  | close : Changes q .close { q with closed := true }
  | read (n : ℕ) :
      Changes q (.read n) { q with phase := if q.heap.size = 0 then .first n else .loop n }
  | handOver (p : Packet ρ) (rest : List (Packet ρ)) (hpushed : q.pushedPackets = p :: rest) :
      Changes q .receive { q with pushedPackets := rest, phase := .idle }
  | receive (n : ℕ) (p : Packet ρ) (rest : List (Packet ρ)) (hpushed : q.pushedPackets = p :: rest)
      (hphase : q.phase = .first n ∨ q.phase = .wait n) :
      Changes q .receive { q with pushedPackets := rest, heap := q.heap.push p, phase := .loop n }
  | eof : Changes q .eof { q with phase := .idle }
  | turn (n : ℕ) (hloop : q.phase = .loop n) : Changes q .pop (q.turn n)

variable {q q' : UploadQueue ρ} {action : Action ρ}

theorem changes_of_step (h : q.step action = some q') : q.Changes action q' := by
  cases action with
  | push p =>
    simp only [step] at h
    split_ifs at h with hreader
    · obtain rfl := some.inj h
      exact .stay _
    · obtain rfl := some.inj h
      exact .push p (by simpa using hreader)
  | send i =>
    simp only [step] at h
    split at h
    · simp at h
    · rename_i p hp
      split_ifs at h
      obtain rfl := some.inj h
      exact .send i p (mem_of_getElem? hp)
  | refuse i =>
    simp only [step] at h
    split_ifs at h
    obtain rfl := some.inj h
    exact .refuse i
  | close =>
    obtain rfl := some.inj h
    exact .close
  | read n =>
    simp only [step] at h
    split at h
    · by_cases hend : (q.reader.isSome || q.closed) = true
      · rw [if_pos hend] at h
        obtain rfl := some.inj h
        exact .stay _
      · rw [if_neg hend] at h
        obtain rfl := some.inj h
        exact .read n
    · simp at h
  | receive =>
    simp only [step] at h
    split at h
    · rename_i n p rest hphase hpushed
      split_ifs at h
      · obtain rfl := some.inj h
        exact .handOver p rest hpushed
      · obtain rfl := some.inj h
        exact .receive n p rest hpushed (Or.inl hphase)
    · rename_i n p rest hphase hpushed
      obtain rfl := some.inj h
      exact .receive n p rest hpushed (Or.inr hphase)
    · simp at h
  | eof =>
    simp only [step] at h
    split_ifs at h
    obtain rfl := some.inj h
    exact .eof
  | pop =>
    simp only [step] at h
    split at h
    · rename_i n hloop
      obtain rfl := some.inj h
      exact .turn n hloop
    · simp at h

/-! ## The bound of the heap -/

variable {heap : UploadHeap ρ} {p : Packet ρ}

theorem size_of_pop {heap' : UploadHeap ρ} (h : heap.pop = some (p, heap')) :
    heap.size = heap'.size + 1 := by
  have hlength := (MinHeap.perm_of_pop h).length_eq
  simpa [MinHeap.toList, MinHeap.size] using hlength

/-- The heap keeps its bound, with room for a packet where one may be received. -/
structure Bounded (maxPackets : ℕ) (q : UploadQueue ρ) : Prop where
  max : q.maxPackets = maxPackets
  heap : q.heap.size ≤ maxPackets + 2
  first : ∀ n, q.phase = .first n → q.heap.size = 0
  wait : ∀ n, q.phase = .wait n → q.heap.size ≤ maxPackets + 1

variable {maxPackets : ℕ}

/-- Away from the selects only the heap itself counts. -/
theorem Bounded.of_heap (hmax : q.maxPackets = maxPackets) (hheap : q.heap.size ≤ maxPackets + 2)
    (hwaiting : q.waiting = false) : Bounded maxPackets q := by
  refine ⟨hmax, hheap, fun n hn => ?_, fun n hn => ?_⟩
  all_goals
    simp [waiting, hn] at hwaiting

theorem Bounded.turn {n : ℕ} (h : Bounded maxPackets q) (hloop : q.phase = .loop n) :
    Bounded maxPackets (q.turn n) := by
  unfold UploadQueue.turn
  cases hpop : q.heap.pop with
  | none => exact .of_heap h.max h.heap rfl
  | some taken =>
    obtain ⟨p, heap⟩ := taken
    have hsize := size_of_pop hpop
    have hheap := h.heap
    dsimp only
    split_ifs with heq hgt hlarge
    · unfold consume
      dsimp only
      split_ifs
      · refine .of_heap h.max ?_ rfl
        rw [MinHeap.size_push]
        omega
      · refine .of_heap h.max ?_ rfl
        show heap.size ≤ _
        omega
    · refine .of_heap h.max ?_ rfl
      show heap.size ≤ _
      omega
    · -- the packet goes back, and with it there is still room for one more
      have hle := Nat.not_lt.mp hlarge
      have hback : (heap.push p).size = heap.size + 1 := MinHeap.size_push heap p
      have hmax := h.max
      exact ⟨h.max, by dsimp only; omega, fun _ hn => by simp at hn,
        fun _ _ => by dsimp only; omega⟩
    · refine .of_heap h.max ?_ ?_
      · show heap.size ≤ _
        omega
      · rw [waiting]
        show (match q.phase with | .first _ => true | .wait _ => true | _ => false) = false
        rw [hloop]

theorem Bounded.step (h : Bounded maxPackets q) (hstep : q.step action = some q') :
    Bounded maxPackets q' := by
  cases changes_of_step hstep with
  | stay => exact h
  | push | send | refuse | close => exact ⟨h.max, h.heap, h.first, h.wait⟩
  | read n =>
    refine ⟨h.max, h.heap, fun m hm => ?_, fun m hm => ?_⟩
    · by_contra hne
      dsimp only at hm hne
      rw [if_neg hne] at hm
      exact Phase.noConfusion hm
    · dsimp only at hm
      split_ifs at hm
  | handOver | eof => exact .of_heap h.max h.heap rfl
  | receive n p rest hpushed hphase =>
    refine .of_heap h.max ?_ rfl
    show (q.heap.push p).size ≤ _
    rw [MinHeap.size_push]
    rcases hphase with hfirst | hwait
    · have hsize := h.first n hfirst
      omega
    · have hsize := h.wait n hwait
      omega
  | turn n hloop => exact h.turn hloop

/-! ## The order of the stream -/

/-- The stream up to a packet, given the payload of each. -/
def upTo (payload : ℕ → Bytes) (k : ℕ) : Bytes := (List.range k).flatMap payload

theorem upTo_succ (payload : ℕ → Bytes) (k : ℕ) :
    upTo payload (k + 1) = upTo payload k ++ payload k := by
  rw [upTo, range_succ, flatMap_append, flatMap_singleton]
  rfl

/-- A packet as it is pushed: the whole payload of its number, and no connection. -/
structure Whole (payload : ℕ → Bytes) (p : Packet ρ) : Prop where
  reader : p.reader = none
  payload : p.payload = payload p.key

/-- Packets are pushed as the stream has them: again and again maybe, but never with
    another payload. -/
def Pushes (payload : ℕ → Bytes) : Action ρ → Prop
  | .push p => p.reader = none ∧ p.payload = payload p.key
  | _ => True

/-- With a second packet of the number being read in the heap, a packet of that number is
    read to its end or not at all; and the turn of the last number there is never comes. -/
def Undoubled (q : UploadQueue ρ) : Action ρ → Prop
  | .pop => ∀ n, q.phase = .loop n → ∀ p ∈ q.heap.toList, p.seq = q.nextSeq →
      q.nextSeq.toNat + 1 < 2 ^ 64 ∧
        (2 ≤ q.heap.toList.countP (fun p => p.seq = q.nextSeq) → n = 0 ∨ p.payload.length ≤ n)
  | _ => True

/-- Between two packets: everything in the heap is whole. -/
structure Between (payload : ℕ → Bytes) (q : UploadQueue ρ) : Prop where
  output : q.output = upTo payload q.nextSeq.toNat
  heap : ∀ p ∈ q.heap.toList, Whole payload p

/-- Within a packet: what is left of it is in the heap, once and without another of its
    number, and no reader waits for more. -/
structure Within (payload : ℕ → Bytes) (q : UploadQueue ρ) : Prop where
  waiting : q.waiting = false
  seq : q.nextSeq.toNat + 1 < 2 ^ 64
  left : ∃ done left rest, payload q.nextSeq.toNat = done ++ left ∧
    q.output = upTo payload q.nextSeq.toNat ++ done ∧
    q.heap.toList.Perm ({ reader := none, payload := left, seq := q.nextSeq } :: rest) ∧
    ∀ p ∈ rest, Whole payload p ∧ p.seq ≠ q.nextSeq

/-- Everything on the way is whole, and the output ends between packets or within one. -/
structure InOrder (payload : ℕ → Bytes) (q : UploadQueue ρ) : Prop where
  reader : q.reader = none
  pushing : ∀ p ∈ q.pushing, Whole payload p
  pushed : ∀ p ∈ q.pushedPackets, Whole payload p
  cursor : Between payload q ∨ Within payload q

variable {payload : ℕ → Bytes}

theorem Between.startsStream (h : Between payload q) : q.output <+: upTo payload q.nextSeq.toNat :=
  h.output ▸ prefix_rfl

theorem Within.startsStream (h : Within payload q) :
    q.output <+: upTo payload (q.nextSeq.toNat + 1) := by
  obtain ⟨done, left, rest, hpayload, houtput, -⟩ := h.left
  rw [houtput, upTo_succ, hpayload, ← append_assoc]
  exact prefix_append _ _

/-- A packet whose turn it is, from its place in the stream on: what is read of it comes
    next, and what is left goes back alone. -/
theorem inOrder_consume (h : InOrder payload q) {n : ℕ} (done : Bytes)
    (hreader : p.reader = none) (hseq : p.seq = q.nextSeq) (hlast : q.nextSeq.toNat + 1 < 2 ^ 64)
    (hpayload : payload q.nextSeq.toNat = done ++ p.payload)
    (houtput : q.output = upTo payload q.nextSeq.toNat ++ done)
    (hheap : ∀ p ∈ heap.toList, Whole payload p)
    (halone : n < p.payload.length → ∀ p ∈ heap.toList, p.seq ≠ q.nextSeq) :
    InOrder payload (q.consume n p heap) := by
  obtain ⟨reader, content, seq⟩ := p
  subst hreader hseq
  unfold consume
  dsimp only at hpayload halone ⊢
  split_ifs with hcut
  · -- cut short: the rest of the packet goes back
    have hn : min n content.length = n := by omega
    rw [hn] at hcut ⊢
    refine ⟨h.reader, h.pushing, h.pushed, Or.inr ⟨rfl, hlast, ?_⟩⟩
    refine ⟨done ++ content.take n, content.drop n, heap.toList, ?_, ?_, ?_, ?_⟩
    · rw [append_assoc, take_append_drop]
      exact hpayload
    · show q.output ++ _ = _
      rw [houtput, append_assoc]
    · exact heap.perm_push _
    · exact fun x hx => ⟨hheap x hx, halone hcut x hx⟩
  · -- read to its end: the next number is due
    have htake : content.take (min n content.length) = content :=
      take_of_length_le (by omega)
    have hnext : (q.nextSeq + 1).toNat = q.nextSeq.toNat + 1 := by
      rw [UInt64.toNat_add]
      exact Nat.mod_eq_of_lt hlast
    refine ⟨h.reader, h.pushing, h.pushed, Or.inl ⟨?_, hheap⟩⟩
    show q.output ++ _ = upTo payload (q.nextSeq + 1).toNat
    rw [htake, hnext, upTo_succ, houtput, hpayload, append_assoc]

theorem whole_push (hp : Whole payload p) (hheap : ∀ x ∈ heap.toList, Whole payload x) :
    ∀ x ∈ (heap.push p).toList, Whole payload x := by
  intro x hx
  rcases mem_cons.mp ((heap.perm_push p).mem_iff.mp hx) with rfl | hx
  · exact hp
  · exact hheap x hx

/-- An empty buffer takes nothing, and the packet goes back as it is. -/
theorem Between.consume_zero (h : Between payload q) (hp : Whole payload p)
    (hheap : ∀ p ∈ heap.toList, Whole payload p) (hpos : 0 < p.payload.length) :
    Between payload (q.consume 0 p heap) := by
  unfold consume
  simp only [Nat.zero_min, hpos, if_true, take_zero, append_nil, drop_zero]
  exact ⟨h.output, whole_push hp hheap⟩

theorem InOrder.turn_between (h : InOrder payload q) (hbetween : Between payload q) {n : ℕ}
    (hloop : q.phase = .loop n) (hundoubled : Undoubled q .pop) : InOrder payload (q.turn n) := by
  unfold UploadQueue.turn
  cases hpop : q.heap.pop with
  | none => exact ⟨h.reader, h.pushing, h.pushed, Or.inl ⟨hbetween.output, hbetween.heap⟩⟩
  | some taken =>
    obtain ⟨p, heap⟩ := taken
    have hperm := MinHeap.perm_of_pop hpop
    have hp : Whole payload p := hbetween.heap p (hperm.mem_iff.mpr mem_cons_self)
    have hheap : ∀ x ∈ heap.toList, Whole payload x := fun x hx =>
      hbetween.heap x (hperm.mem_iff.mpr (mem_cons_of_mem _ hx))
    dsimp only
    split_ifs with heq hgt hlarge
    · have hkey : p.key = q.nextSeq.toNat := congrArg UInt64.toNat heq
      by_cases hzero : n = 0 ∧ 0 < p.payload.length
      · obtain ⟨rfl, hpos⟩ := hzero
        have hconsume : (q.consume 0 p heap).reader = none ∧
            (q.consume 0 p heap).pushing = q.pushing ∧
            (q.consume 0 p heap).pushedPackets = q.pushedPackets := by
          unfold consume
          dsimp only
          split_ifs <;> exact ⟨h.reader, rfl, rfl⟩
        refine ⟨hconsume.1, ?_, ?_, Or.inl (hbetween.consume_zero hp hheap hpos)⟩
        · rw [hconsume.2.1]
          exact h.pushing
        · rw [hconsume.2.2]
          exact h.pushed
      · obtain ⟨hlast, hwhole⟩ := hundoubled n hloop p (hperm.mem_iff.mpr mem_cons_self) heq
        apply inOrder_consume h [] hp.reader heq hlast _ _ hheap
        · -- a second packet of this number would have to be read whole
          intro hcut x hx hxseq
          have htwo : 2 ≤ q.heap.toList.countP (fun p => p.seq = q.nextSeq) := by
            rw [hperm.countP_eq, countP_cons_of_pos (by simpa using heq)]
            have hone : 0 < heap.toList.countP (fun p => p.seq = q.nextSeq) :=
              countP_pos_iff.mpr ⟨x, hx, by simpa using hxseq⟩
            omega
          have := hwhole htwo
          omega
        · rw [nil_append, hp.payload, hkey]
        · rw [hbetween.output, append_nil]
    · exact ⟨h.reader, h.pushing, h.pushed, Or.inl ⟨hbetween.output, hheap⟩⟩
    · exact ⟨h.reader, h.pushing, h.pushed, Or.inl ⟨hbetween.output, whole_push hp hheap⟩⟩
    · exact ⟨h.reader, h.pushing, h.pushed, Or.inl ⟨hbetween.output, hheap⟩⟩

theorem InOrder.turn_within (h : InOrder payload q) (hwithin : Within payload q) (n : ℕ) :
    InOrder payload (q.turn n) := by
  obtain ⟨hwaiting, hlast, done, left, rest, hpayload, houtput, hheld, hrest⟩ := hwithin
  unfold UploadQueue.turn
  cases hpop : q.heap.pop with
  | none =>
    rw [MinHeap.pop_eq_none_iff] at hpop
    rw [hpop] at hheld
    exact absurd hheld.symm (by simp)
  | some taken =>
    obtain ⟨p, heap⟩ := taken
    have hperm := (MinHeap.perm_of_pop hpop).symm.trans hheld
    have hmem : p ∈ ({ reader := none, payload := left, seq := q.nextSeq } : Packet ρ) :: rest :=
      hperm.mem_iff.mp mem_cons_self
    have hle : p.key ≤ q.nextSeq.toNat :=
      MinHeap.le_of_pop hpop (hheld.mem_iff.mpr mem_cons_self)
    dsimp only
    split_ifs with heq hgt hlarge
    · -- the only packet of this number is what is left of it
      rcases mem_cons.mp hmem with rfl | hp
      · have hheap := List.Perm.cons_inv hperm
        exact inOrder_consume h done rfl rfl hlast hpayload houtput
          (fun x hx => (hrest x (hheap.mem_iff.mp hx)).1)
          (fun _ x hx => (hrest x (hheap.mem_iff.mp hx)).2)
      · exact absurd heq (hrest p hp).2
    · exact absurd hle (Nat.not_le.mpr (UInt64.lt_iff_toNat_lt.mp hgt))
    · exact absurd hle (Nat.not_le.mpr (UInt64.lt_iff_toNat_lt.mp hgt))
    · -- an old packet is dropped, and what is left stays
      have hp : p ∈ rest := (mem_cons.mp hmem).resolve_left fun hp => heq (hp ▸ rfl)
      obtain ⟨before, after, rfl⟩ := append_of_mem hp
      refine ⟨h.reader, h.pushing, h.pushed, Or.inr ⟨?_, hlast, done, left, before ++ after,
        hpayload, houtput, ?_, fun x hx => hrest x ?_⟩⟩
      · rw [← hwaiting]
        rfl
      · apply List.Perm.cons_inv (a := p)
        refine hperm.trans (.trans ?_ (.swap _ _ _))
        exact perm_middle.cons _
      · simp only [mem_append, mem_cons] at hx ⊢
        exact hx.imp_right Or.inr

/-- The cursor depends only on the heap, the number due, the output, and that no reader
    waits where none did. -/
theorem cursor_of_eq (h : Between payload q ∨ Within payload q) (hheap : q'.heap = q.heap)
    (hseq : q'.nextSeq = q.nextSeq) (houtput : q'.output = q.output)
    (hwaiting : Within payload q → q'.waiting = false) :
    Between payload q' ∨ Within payload q' := by
  rcases h with h | h
  · left
    exact ⟨by rw [houtput, hseq]; exact h.output, by rw [hheap]; exact h.heap⟩
  · right
    refine ⟨hwaiting h, by rw [hseq]; exact h.seq, ?_⟩
    rw [hseq, houtput, hheap]
    exact h.left

/-- What is left of a packet keeps the heap from being empty. -/
theorem Within.size_ne_zero (h : Within payload q) : q.heap.size ≠ 0 := by
  obtain ⟨done, left, rest, -, -, hheld, -⟩ := h.left
  have hlength := hheld.length_eq
  rw [MinHeap.toList, Array.length_toList, length_cons] at hlength
  exact fun hsize => by
    rw [MinHeap.size] at hsize
    omega

theorem InOrder.step (h : InOrder payload q) (hpushes : Pushes payload action)
    (hundoubled : Undoubled q action) (hstep : q.step action = some q') : InOrder payload q' := by
  cases changes_of_step hstep with
  | stay => exact h
  | push p =>
    refine ⟨hpushes.1, fun x hx => ?_, h.pushed, cursor_of_eq h.cursor rfl rfl rfl Within.waiting⟩
    rcases mem_cons.mp hx with rfl | hx
    · exact ⟨hpushes.1, hpushes.2⟩
    · exact h.pushing x hx
  | send i p hp =>
    refine ⟨h.reader, fun x hx => h.pushing x (mem_of_mem_eraseIdx hx), fun x hx => ?_,
      cursor_of_eq h.cursor rfl rfl rfl Within.waiting⟩
    rcases mem_append.mp hx with hx | hx
    · exact h.pushed x hx
    · rw [mem_singleton.mp hx]
      exact h.pushing p hp
  | refuse i =>
    exact ⟨h.reader, fun x hx => h.pushing x (mem_of_mem_eraseIdx hx), h.pushed,
      cursor_of_eq h.cursor rfl rfl rfl Within.waiting⟩
  | close =>
    exact ⟨h.reader, h.pushing, h.pushed, cursor_of_eq h.cursor rfl rfl rfl Within.waiting⟩
  | read n =>
    refine ⟨h.reader, h.pushing, h.pushed, cursor_of_eq h.cursor rfl rfl rfl fun hwithin => ?_⟩
    rw [waiting, if_neg hwithin.size_ne_zero]
  | handOver p rest hpushed =>
    refine ⟨h.reader, h.pushing, fun x hx => h.pushed x ?_,
      cursor_of_eq h.cursor rfl rfl rfl fun _ => rfl⟩
    rw [hpushed]
    exact mem_cons_of_mem _ hx
  | receive n p rest hpushed hphase =>
    have hmem : ∀ x ∈ p :: rest, Whole payload x := hpushed ▸ h.pushed
    -- a reader that waits stands between packets
    have hbetween : Between payload q := h.cursor.resolve_right fun hwithin => by
      have hwaiting := hwithin.waiting
      rcases hphase with hphase | hphase <;> simp [waiting, hphase] at hwaiting
    exact ⟨h.reader, h.pushing, fun x hx => hmem x (mem_cons_of_mem _ hx),
      Or.inl ⟨hbetween.output, whole_push (hmem p mem_cons_self) hbetween.heap⟩⟩
  | eof =>
    exact ⟨h.reader, h.pushing, h.pushed, cursor_of_eq h.cursor rfl rfl rfl fun _ => rfl⟩
  | turn n hloop =>
    rcases h.cursor with hbetween | hwithin
    · exact h.turn_between hbetween hloop hundoubled
    · exact h.turn_within hwithin n

/-! ## Whole runs -/

/-- Some step that is allowed in its state. -/
def Next (allowed : UploadQueue ρ → Action ρ → Prop) (q q' : UploadQueue ρ) : Prop :=
  ∃ action, allowed q action ∧ q.step action = some q'

theorem bounded_new (maxPackets : ℕ) : Bounded maxPackets (new maxPackets : UploadQueue ρ) :=
  .of_heap rfl (Nat.zero_le _) rfl

theorem inOrder_new (payload : ℕ → Bytes) (maxPackets : ℕ) :
    InOrder payload (new maxPackets : UploadQueue ρ) where
  reader := rfl
  pushing := by simp [new]
  pushed := by simp [new]
  cursor := Or.inl ⟨rfl, by simp [new, MinHeap.empty, MinHeap.toList]⟩

/-- **The queue delivers the stream in order**, in every run in which no read is cut short
    with a second packet of its number in the heap, and the heap keeps its bound in every
    run at all. -/
theorem upload_in_order (payload : ℕ → Bytes) (maxPackets : ℕ) (q : UploadQueue ρ) :
    (ReflTransGen (Next fun _ a => Pushes payload a) (new maxPackets) q →
      q.heap.size ≤ maxPackets + 2) ∧
    (ReflTransGen (Next fun q a => Pushes payload a ∧ Undoubled q a) (new maxPackets) q →
      ∃ k, q.output <+: upTo payload k) := by
  constructor
  · intro hrun
    refine (reach_closed (fun x hx y hxy => ?_) (bounded_new maxPackets) hrun).heap
    obtain ⟨action, -, hstep⟩ := hxy
    exact hx.step hstep
  · intro hrun
    have horder : InOrder payload q := by
      refine reach_closed (fun x hx y hxy => ?_) (inOrder_new payload maxPackets) hrun
      obtain ⟨action, ⟨hpushes, hundoubled⟩, hstep⟩ := hxy
      exact hx.step hpushes hundoubled hstep
    rcases horder.cursor with hbetween | hwithin
    · exact ⟨_, hbetween.startsStream⟩
    · exact ⟨_, hwithin.startsStream⟩

/-! A stream of two packets, the second of two bytes, of which a buffer of one byte takes the
    first. -/

def twoPackets : ℕ → Bytes
  | 0 => [0]
  | 1 => [1, 2]
  | _ => []

def packetOf (seq : UInt64) : Packet Unit :=
  { reader := none, payload := twoPackets seq.toNat, seq }

/-- Packet 1 comes before packet 0, and is read in two calls. -/
def reorderedRun : List (Action Unit) :=
  [.push (packetOf 1), .send 0, .push (packetOf 0), .send 0, .read 4, .receive, .pop, .receive,
    .pop, .read 1, .pop, .read 1, .pop]

/-- The same with packet 1 pushed twice before packet 0. -/
def doubledRun : List (Action Unit) :=
  [.push (packetOf 1), .send 0, .push (packetOf 1), .send 0, .push (packetOf 0), .send 0, .read 4,
    .receive, .pop, .receive, .pop, .receive, .pop, .read 1, .pop, .read 1, .pop]

/-- Pushes of packets of that stream. -/
def pushesTwo : Action Unit → Bool
  | .push p => p.reader.isNone && p.payload == twoPackets p.key
  | _ => true

/-- Small numbers, and reads with one packet of their number in the heap. -/
def single (q : UploadQueue Unit) : Action Unit → Bool
  | .pop => q.nextSeq.toNat + 1 < 2 ^ 64 ∧ q.heap.toList.countP (fun p => p.seq = q.nextSeq) < 2
  | _ => true

theorem pushes_of_pushesTwo {action : Action Unit} (h : pushesTwo action = true) :
    Pushes twoPackets action := by
  cases action with
  | push p => simpa [pushesTwo, Pushes] using h
  | _ => trivial

theorem undoubled_of_single {q : UploadQueue Unit} {action : Action Unit}
    (h : q.single action = true) : Undoubled q action := by
  cases action with
  | pop =>
    obtain ⟨hlast, hone⟩ := of_decide_eq_true h
    exact fun n _ p _ _ => ⟨hlast, fun htwo => absurd htwo (Nat.not_le.mpr hone)⟩
  | _ => trivial

theorem upload_in_order_reordered :
    ∃ q : UploadQueue Unit,
      ReflTransGen (Next fun q a => Pushes twoPackets a ∧ Undoubled q a) (new 10) q ∧
        q.output = [0, 1, 2] ∧ ∃ k, q.output <+: upTo twoPackets k := by
  have hrun : (run (fun q a => if pushesTwo a && q.single a then q.step a else none) reorderedRun
      (new 10)).any fun q => q.output == [0, 1, 2] := by decide +kernel
  obtain ⟨q, hq, houtput⟩ := (any_eq_true _ _).mp hrun
  have hreach : ReflTransGen (Next fun q a => Pushes twoPackets a ∧ Undoubled q a) (new 10) q := by
    refine reach_of_run (fun s a s' h => ?_) reorderedRun hq
    split_ifs at h with hok
    rw [Bool.and_eq_true] at hok
    exact ⟨a, ⟨pushes_of_pushesTwo hok.1, undoubled_of_single hok.2⟩, h⟩
  exact ⟨q, hreach, by simpa using houtput, (upload_in_order twoPackets 10 q).2 hreach⟩

theorem upTo_twoPackets (k : ℕ) : upTo twoPackets (k + 2) = [0, 1, 2] := by
  induction k with
  | zero => rfl
  | succ k ih => rw [upTo_succ, ih]; rfl

/-- The first byte of packet 1 comes out twice: the second read finds the other copy. -/
theorem upload_repeats_doubled :
    ∃ q : UploadQueue Unit, ReflTransGen (Next fun _ a => Pushes twoPackets a) (new 10) q ∧
      ¬ ∃ k, q.output <+: upTo twoPackets k := by
  have hrun : (run (fun q a => if pushesTwo a then q.step a else none) doubledRun (new 10)).any
      fun q => q.output == [0, 1, 1] := by decide +kernel
  obtain ⟨q, hq, houtput⟩ := (any_eq_true _ _).mp hrun
  refine ⟨q, ?_, ?_⟩
  · refine reach_of_run (fun s a s' h => ?_) doubledRun hq
    split_ifs at h with hok
    exact ⟨a, pushes_of_pushesTwo hok, h⟩
  · rintro ⟨k, hstarts⟩
    rw [beq_iff_eq.mp houtput] at hstarts
    match k, hstarts with
    | 0, hstarts => exact absurd hstarts (by decide)
    | 1, hstarts => exact absurd hstarts (by decide)
    | k + 2, hstarts =>
      rw [upTo_twoPackets] at hstarts
      exact absurd hstarts (by decide)

end UploadQueue

end XrayCore.SplitHttp
