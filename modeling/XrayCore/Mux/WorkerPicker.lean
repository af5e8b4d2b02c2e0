/-
  XrayCore.Mux.WorkerPicker

  Which of its workers a mux client hands out.

  A worker that is not full is found, and swapped to the end of the list; what is handed
  out is what then stands in its place, the worker that was the last (`pickInternal_cases`).
-/

import XrayCore.Mux.SessionManager

namespace XrayCore.Mux

open List

/-- `ClientWorker`: which one it is, its sessions and its limits, and whether it is done. -/
structure ClientWorker where
  serial : ℕ
  sessionManager : SessionManager
  strategy : ClientStrategy
  done : Bool

namespace ClientWorker

/-- `NewClientWorker`. -/
def new (serial : ℕ) (strategy : ClientStrategy) : ClientWorker := ⟨serial, .new, strategy, false⟩

/-- `IsClosing`. -/
def isClosing (m : ClientWorker) : Bool :=
  0 < m.strategy.maxConnection ∧ m.strategy.maxConnection.toNat ≤ m.sessionManager.count.toNat

/-- `IsFull`. -/
def isFull (m : ClientWorker) : Bool :=
  m.isClosing || m.done ||
    (0 < m.strategy.maxConcurrency ∧
      m.strategy.maxConcurrency.toNat ≤ m.sessionManager.sessions.length)

theorem isFull_new (serial : ℕ) (strategy : ClientStrategy) :
    (new serial strategy).isFull = false := by
  have hzero : (0 : UInt16).toNat = 0 := rfl
  simp only [isFull, isClosing, new, SessionManager.new, hzero, length_nil, Nat.le_zero_eq,
    Bool.or_false, Bool.or_eq_false_iff, decide_eq_false_iff_not, not_and, UInt32.lt_iff_toNat_lt]
  constructor
  · intro hpos
    exact Nat.ne_of_gt hpos
  · intro hpos
    exact Nat.ne_of_gt hpos

end ClientWorker

/-- `IncrementalWorkerPicker`, with whether its cleanup task is made. -/
structure IncrementalWorkerPicker where
  workers : List ClientWorker
  cleanupTask : Bool

namespace IncrementalWorkerPicker

variable (p : IncrementalWorkerPicker)

/-- `cleanup`. -/
def cleanup : IncrementalWorkerPicker := { p with workers := p.workers.filter (!·.done) }

/-- `findAvailable`, `none` for -1. -/
def findAvailable : Option ℕ := p.workers.findIdx? (!·.isFull)

/-- `pickInternal`, with what the factory gives: the worker and whether it is new, or an error;
    `none` where an index is out of range. -/
def pickInternal (create : Except String ClientWorker) :
    Option (Except String (ClientWorker × Bool) × IncrementalWorkerPicker) :=
  match p.findAvailable with
  | some idx => do
    let n := p.workers.length
    let workers ← if n > 1 ∧ idx ≠ n - 1 then do
        let last ← p.workers[n - 1]?
        let available ← p.workers[idx]?
        pure ((p.workers.set (n - 1) available).set idx last)
      else pure p.workers
    let worker ← workers[idx]?
    return (.ok (worker, false), { p with workers })
  | none =>
    let p := p.cleanup
    match create with
    | .error e => some (.error e, p)
    | .ok worker => some (.ok (worker, true), ⟨p.workers ++ [worker], true⟩)

variable {p}

/-- What is handed out: if a worker is not full, the last of the list, and the list has the same
    workers; otherwise what the factory gives, behind those that are not closed. -/
theorem pickInternal_cases (create : Except String ClientWorker) :
    (∃ w workers, (∃ a ∈ p.workers, a.isFull = false) ∧
      p.pickInternal create = some (.ok (w, false), { p with workers }) ∧
      p.workers.getLast? = some w ∧ workers.Perm p.workers) ∨
    (∀ a ∈ p.workers, a.isFull = true) ∧ p.pickInternal create =
      match create with
      | .error e => some (.error e, p.cleanup)
      | .ok w => some (.ok (w, true), ⟨p.cleanup.workers ++ [w], true⟩) := by
  unfold pickInternal
  cases hfind : p.findAvailable with
  | none =>
    right
    have hnone : ∀ a ∈ p.workers, (!a.isFull) = false := findIdx?_eq_none_iff.mp hfind
    exact ⟨fun a ha => by simpa using hnone a ha, rfl⟩
  | some idx =>
    left
    obtain ⟨hidx, hnot, -⟩ := findIdx?_eq_some_iff_getElem.mp hfind
    have hfree : ∃ a ∈ p.workers, a.isFull = false :=
      ⟨p.workers[idx], getElem_mem hidx, by simpa using hnot⟩
    have hlast : p.workers.length - 1 < p.workers.length := by omega
    have hget : p.workers.getLast? = some p.workers[p.workers.length - 1] := by
      rw [getLast?_eq_getElem?, getElem?_eq_getElem hlast]
    by_cases hswap : p.workers.length > 1 ∧ idx ≠ p.workers.length - 1
    · refine ⟨p.workers[p.workers.length - 1], _, hfree, ?_, hget,
        set_set_perm hlast hidx⟩
      dsimp only
      rw [if_pos hswap, getElem?_eq_getElem hlast, getElem?_eq_getElem hidx]
      -- the place of the worker that was found now has the one that was the last
      show (set _ idx _)[idx]?.bind _ = _
      rw [getElem?_set_self (by rw [length_set]; exact hidx)]
      rfl
    · obtain rfl : idx = p.workers.length - 1 := by omega
      refine ⟨p.workers[p.workers.length - 1], p.workers, hfree, ?_, hget, .refl _⟩
      dsimp only
      rw [if_neg hswap]
      show (p.workers[p.workers.length - 1]?).bind _ = _
      rw [getElem?_eq_getElem hlast]
      rfl

/-- The worker that is handed out is not full exactly if the last one is not, or all are, and then
    it is new.  Those that are not closed stay in the list, each once. -/
theorem pickInternal_usable_iff (hnodup : p.workers.Nodup) (create : Except String ClientWorker)
    (hnew : ∀ w, create = .ok w → w ∉ p.workers ∧ ∃ serial strategy, w = .new serial strategy) :
    ∃ r p', p.pickInternal create = some (r, p') ∧ p'.workers.Nodup ∧
      (∀ a ∈ p.workers, a.done = false → a ∈ p'.workers) ∧
      ((∃ e, r = .error e) ↔ (∀ a ∈ p.workers, a.isFull = true) ∧ ∃ e, create = .error e) ∧
      ∀ w fresh, r = .ok (w, fresh) →
        (fresh = true ↔ ∀ a ∈ p.workers, a.isFull = true) ∧
        (if fresh then create = .ok w else w ∈ p.workers) ∧
        (w.isFull = false ↔ (∀ a ∈ p.workers, a.isFull = true) ∨
          ∃ last, p.workers.getLast? = some last ∧ last.isFull = false) := by
  rcases pickInternal_cases (p := p) create with
    ⟨w, workers, ⟨a, ha, hfree⟩, hpick, hlast, hperm⟩ | ⟨hfull, hpick⟩
  · have hsome : ¬ ∀ a ∈ p.workers, a.isFull = true := fun hall => by
      rw [hall a ha] at hfree
      nomatch hfree
    refine ⟨_, _, hpick, hperm.nodup_iff.mpr hnodup, fun a ha _ => hperm.mem_iff.mpr ha,
      ⟨nofun, fun h => absurd h.1 hsome⟩, ?_⟩
    intro w' fresh hr
    obtain ⟨rfl, rfl⟩ := Prod.mk.inj (Except.ok.inj hr)
    refine ⟨⟨nofun, fun h => absurd h hsome⟩, mem_of_getLast? hlast, ?_⟩
    rw [hlast]
    constructor
    · exact fun h => .inr ⟨w, rfl, h⟩
    · rintro (h | ⟨last, heq, h⟩)
      · exact absurd h hsome
      · rw [Option.some.inj heq]
        exact h
  · have hkept : ∀ a ∈ p.workers, a.done = false → a ∈ p.cleanup.workers := fun a ha hdone =>
      mem_filter.mpr ⟨ha, by rw [hdone]; rfl⟩
    cases create with
    | error e =>
      exact ⟨_, _, hpick, hnodup.filter _, hkept,
        ⟨fun _ => ⟨hfull, e, rfl⟩, fun _ => ⟨e, rfl⟩⟩, nofun⟩
    | ok w =>
      obtain ⟨hout, serial, strategy, rfl⟩ := hnew w rfl
      refine ⟨_, _, hpick, ?_, fun a ha hdone => mem_append_left _ (hkept a ha hdone),
        ⟨nofun, fun h => nomatch h.2⟩, ?_⟩
      · refine List.Nodup.append (hnodup.filter _) (nodup_singleton _) ?_
        intro a ha hw
        rw [mem_singleton.mp hw] at ha
        exact hout (mem_of_mem_filter ha)
      · intro w' fresh hr
        obtain ⟨rfl, rfl⟩ := Prod.mk.inj (Except.ok.inj hr)
        exact ⟨⟨fun _ => hfull, fun _ => rfl⟩, rfl, fun _ => .inl hfull,
          fun _ => ClientWorker.isFull_new serial strategy⟩

/-- A worker with a session, where at most one is allowed. -/
def busy : ClientWorker := ⟨1, ⟨[⟨0, 1⟩], 1, false, [⟨0, 1⟩], []⟩, ⟨1, 0⟩, false⟩

/-- A full worker, one that is not behind it, and a factory that could make a third. -/
theorem pickInternal_usable_two : ∃ w p',
    (⟨[busy, .new 0 ⟨1, 0⟩], false⟩ : IncrementalWorkerPicker).pickInternal (.ok (.new 2 ⟨1, 0⟩)) =
        some (.ok (w, false), p') ∧
      w ∈ [busy, .new 0 ⟨1, 0⟩] ∧ w.isFull = false ∧ p'.workers.Nodup ∧ busy ∈ p'.workers := by
  have hnew : ∀ w, Except.ok (ClientWorker.new 2 ⟨1, 0⟩) = (.ok w : Except String ClientWorker) →
      w ∉ [busy, .new 0 ⟨1, 0⟩] ∧ ∃ serial strategy, w = .new serial strategy := by
    rintro w hw
    obtain rfl := Except.ok.inj hw
    exact ⟨by simp [busy, ClientWorker.new], 2, ⟨1, 0⟩, rfl⟩
  obtain ⟨r, p', hpick, hnodup, hkept, -, hworker⟩ := pickInternal_usable_iff
    (p := ⟨[busy, .new 0 ⟨1, 0⟩], false⟩) (by simp [busy, ClientWorker.new])
    (.ok (.new 2 ⟨1, 0⟩)) hnew
  obtain ⟨rfl, -⟩ := Prod.mk.inj (Option.some.inj hpick)
  obtain ⟨-, hlisted, husable⟩ := hworker _ _ rfl
  exact ⟨_, p', hpick, hlisted, husable.mpr (.inr ⟨_, rfl, by decide⟩), hnodup,
    hkept _ mem_cons_self rfl⟩

/-- Of a worker that is not full and one that is, in this order, the full one is handed out. -/
theorem pickInternal_full : (ClientWorker.new 0 ⟨1, 0⟩).isFull = false ∧ busy.isFull = true ∧
    ∀ create, (⟨[.new 0 ⟨1, 0⟩, busy], false⟩ : IncrementalWorkerPicker).pickInternal create =
      some (.ok (busy, false), ⟨[busy, .new 0 ⟨1, 0⟩], false⟩) :=
  ⟨by decide, by decide, fun _ => rfl⟩

end IncrementalWorkerPicker

end XrayCore.Mux
