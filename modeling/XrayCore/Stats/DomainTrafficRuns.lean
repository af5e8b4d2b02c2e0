/-
  XrayCore.Stats.DomainTrafficRuns

  A consumer that follows the pages of the traffic per domain.

  Calls of `Record` and `Snapshot` come in any order at any readings of the clock. What the
  buckets are worth to a reader is in their stubs: key, start and sequence. As long as 64 bits
  hold the times, keys and sequences of the stubs are in the same order and the sequences have
  no hole (`Ordered`), through rollbacks of the clock and through both ways of pruning.
-/

import XrayCore.Machine.Run
import XrayCore.Stats.DomainTraffic

namespace XrayCore.Stats

open Machine List

/-! ## Times -/

section Truncate

variable {t d s : ℤ}

theorem truncate_le (hd : 0 < d) : truncate t d ≤ t := by
  have := Int.emod_nonneg t hd.ne'
  unfold truncate
  omega

theorem lt_truncate_add (hd : 0 < d) : t < truncate t d + d := by
  have := Int.emod_lt_of_pos t hd
  unfold truncate
  omega

theorem dvd_truncate : d ∣ truncate t d := Int.dvd_self_sub_emod

/-- Of two multiples of a duration the smaller is smaller by it. -/
theorem add_le_of_dvd (hs : d ∣ s) (ht : d ∣ t) (h : s < t) : s + d ≤ t := by
  have := Int.le_of_dvd (by omega) (Int.dvd_sub ht hs)
  omega

theorem le_truncate (hd : 0 < d) (hs : d ∣ s) (hle : s ≤ t) : s ≤ truncate t d := by
  by_contra hlt
  have hstep := add_le_of_dvd (dvd_truncate (t := t)) hs (by omega)
  have hnext := lt_truncate_add (t := t) hd
  omega

theorem truncate_mono (hd : 0 < d) (hle : s ≤ t) : truncate s d ≤ truncate t d :=
  le_truncate hd dvd_truncate ((truncate_le hd).trans hle)

end Truncate

variable {cfg : Settings}

theorem Settings.interval_pos (cfg : Settings) : 0 < cfg.interval := by
  have := cfg.hinterval
  omega

/-- A reading of the clock for which 64 bits hold the nanoseconds of all times that `Record` and
    `Snapshot` compute from it. -/
def Plain (cfg : Settings) (t : ℤ) : Prop :=
  -2 ^ 63 ≤ truncate (truncate t cfg.interval - cfg.retention) cfg.interval - epoch ∧
    t - epoch < 2 ^ 63

instance (cfg : Settings) (t : ℤ) : Decidable (Plain cfg t) := inferInstanceAs (Decidable (_ ∧ _))

/-- A plain reading is later than the zero time. -/
theorem Plain.pos {t : ℤ} (h : Plain cfg t) : 0 < t := by
  have hpos := cfg.interval_pos
  have hlow := h.1
  have hcut := truncate_le (t := truncate t cfg.interval - cfg.retention) hpos
  have hstart := truncate_le (t := t) hpos
  have hretention := cfg.hretention
  unfold epoch at hlow
  omega

/-- The start of a bucket and the cutoff of a time not before it are held. -/
theorem Plain.unixNano {t s : ℤ} (h : Plain cfg t)
    (hlow : truncate (truncate t cfg.interval - cfg.retention) cfg.interval ≤ s) (hhigh : s ≤ t) :
    unixNano s = s - epoch := by
  have := h.1
  have := h.2
  exact wrap64_of_lt (by omega) (by omega)

/-- The start of the bucket of a plain reading. -/
theorem Plain.start {t : ℤ} (h : Plain cfg t) :
    -2 ^ 63 ≤ truncate t cfg.interval - epoch ∧
      Stats.unixNano (truncate t cfg.interval) = truncate t cfg.interval - epoch := by
  have hpos := cfg.interval_pos
  have hcut := truncate_le (t := truncate t cfg.interval - cfg.retention) hpos
  have hretention := cfg.hretention
  have hlow := h.1
  exact ⟨by omega, h.unixNano (by omega) (truncate_le hpos)⟩

/-! ## Stubs -/

/-- What orders a bucket. -/
structure Stub where
  key : ℤ
  start : ℤ
  sequence : ℕ

def stub (b : ℤ × DomainTrafficBucket) : Stub := ⟨b.1, b.2.start, b.2.sequence⟩

def DomainTraffic.stubs (d : DomainTraffic) : List Stub := d.buckets.map stub

/-- Keys and sequences are in the same order, the sequences without a hole up to the next one, and
    what was published (up to `top`) is over. The last bucket that was made started at `newest`. -/
structure Ordered (cfg : Settings) (lastTime newest : ℤ) (nextSeq top : ℕ) (stubs : List Stub) :
    Prop where
  hkey : ∀ b ∈ stubs, b.key = b.start - epoch
  hsorted : stubs.Pairwise fun x y => x.start < y.start
  hsequences : stubs.map Stub.sequence = List.range' (nextSeq - stubs.length) stubs.length
  hcount : stubs.length < nextSeq
  hstart : ∀ b ∈ stubs, cfg.interval ∣ b.start ∧ b.start ≤ lastTime
  hover : ∀ b ∈ stubs, b.sequence ≤ top → b.start + cfg.interval ≤ lastTime
  htop : top < nextSeq
  hnewest : nextSeq = 1 ∨ cfg.interval ∣ newest ∧ newest ≤ lastTime ∧
    2 * (nextSeq : ℤ) ≤ newest - epoch + 2 ^ 63 + 4 ∧
    ((∃ b ∈ stubs, b.start = newest) ∨ newest + cfg.interval ≤ lastTime)

/-- What a predicate keeps that lasts once it holds is a rest of the list. -/
theorem filter_eq_drop {α : Type} {p : α → Bool} {l : List α}
    (h : l.Pairwise fun x y => p x = true → p y = true) :
    ∃ k ≤ l.length, l.filter p = l.drop k := by
  induction l with
  | nil => exact ⟨0, Nat.le_refl 0, rfl⟩
  | cons x l ih =>
    obtain ⟨hx, hl⟩ := pairwise_cons.mp h
    by_cases hp : p x = true
    · refine ⟨0, Nat.zero_le _, filter_eq_self.mpr fun y hy => ?_⟩
      rcases mem_cons.mp hy with rfl | hy
      · exact hp
      · exact hx y hy hp
    · obtain ⟨k, hk, hdrop⟩ := ih hl
      exact ⟨k + 1, Nat.succ_le_succ hk, by rw [filter_cons_of_neg hp, hdrop, drop_succ_cons]⟩

/-- What comes before an element of a front part of an ascending list is in that part. -/
theorem mem_take_of_lt {l : List ℕ} (h : l.Pairwise (· < ·)) {k x y : ℕ} (hy : y ∈ l.take k)
    (hx : x ∈ l) (hlt : x < y) : x ∈ l.take k := by
  rw [← take_append_drop k l] at h hx
  rcases mem_append.mp hx with hx | hx
  · exact hx
  · have := (pairwise_append.mp h).2.2 y hy x hx
    omega

namespace Ordered

variable {lastTime newest : ℤ} {nextSeq top : ℕ} {stubs : List Stub}

/-- Time goes on. -/
theorem later (h : Ordered cfg lastTime newest nextSeq top stubs) {now : ℤ} (hle : lastTime ≤ now) :
    Ordered cfg now newest nextSeq top stubs where
  hkey := h.hkey
  hsorted := h.hsorted
  hsequences := h.hsequences
  hcount := h.hcount
  hstart b hb := ⟨(h.hstart b hb).1, (h.hstart b hb).2.trans hle⟩
  hover b hb hbt := (h.hover b hb hbt).trans hle
  htop := h.htop
  hnewest := by
    rcases h.hnewest with hone | ⟨hdvd, hnow, hbound, hlast⟩
    · exact .inl hone
    · exact .inr ⟨hdvd, hnow.trans hle, hbound, hlast.imp id fun hpast => hpast.trans hle⟩

/-- Buckets before a cutoff go, which is a front part of them. -/
theorem prune (h : Ordered cfg lastTime newest nextSeq top stubs) {cut : ℤ}
    (hcut : cfg.interval ∣ cut) (hle : cut ≤ lastTime) :
    Ordered cfg lastTime newest nextSeq top (stubs.filter fun b => ¬ b.key < cut - epoch) := by
  have hmono : stubs.Pairwise fun x y =>
      decide (¬ x.key < cut - epoch) = true → decide (¬ y.key < cut - epoch) = true := by
    refine h.hsorted.imp_of_mem fun {x y} hx hy hxy => ?_
    rw [h.hkey x hx, h.hkey y hy, decide_eq_true_eq, decide_eq_true_eq]
    omega
  obtain ⟨k, hk, hdrop⟩ := filter_eq_drop hmono
  have hmem : ∀ b ∈ stubs.filter fun b => ¬ b.key < cut - epoch, b ∈ stubs :=
    fun b hb => mem_of_mem_filter hb
  have hcount := h.hcount
  refine ⟨fun b hb => h.hkey b (hmem b hb), h.hsorted.filter _, ?_, ?_,
    fun b hb => h.hstart b (hmem b hb), fun b hb => h.hover b (hmem b hb), h.htop, ?_⟩
  · rw [hdrop, map_drop, h.hsequences, drop_range', length_drop, Nat.mul_one]
    congr 1
    omega
  · rw [hdrop, length_drop]
    omega
  · rcases h.hnewest with hone | ⟨hdvd, hnow, hbound, ⟨b, hb, rfl⟩ | hpast⟩
    · exact .inl hone
    · refine .inr ⟨hdvd, hnow, hbound, ?_⟩
      -- the last bucket stays, or is at least one interval before the cutoff
      rcases lt_or_ge b.start cut with hlt | hge
      · have := add_le_of_dvd hdvd hcut hlt
        exact .inr (by omega)
      · refine .inl ⟨b, mem_filter.mpr ⟨hb, ?_⟩, rfl⟩
        rw [h.hkey b hb, decide_eq_true_eq]
        omega
    · exact .inr ⟨hdvd, hnow, hbound, .inr hpast⟩

/-- The bucket of the present moment is not published. -/
theorem open_fresh (h : Ordered cfg lastTime newest nextSeq top stubs) {b : Stub} (hb : b ∈ stubs)
    (hstart : b.start = truncate lastTime cfg.interval) : top < b.sequence := by
  by_contra hle
  have hover := h.hover b hb (by omega)
  have hnext := lt_truncate_add (t := lastTime) cfg.interval_pos
  omega

/-- No bucket of the present moment: all of them are earlier. -/
theorem before (h : Ordered cfg lastTime newest nextSeq top stubs)
    (hnone : ∀ b ∈ stubs, b.key ≠ truncate lastTime cfg.interval - epoch) :
    ∀ b ∈ stubs, b.start < truncate lastTime cfg.interval := by
  intro b hb
  obtain ⟨hdvd, hle⟩ := h.hstart b hb
  have hstart := le_truncate cfg.interval_pos hdvd hle
  have hne := hnone b hb
  rw [h.hkey b hb] at hne
  omega

/-- There are fewer buckets than 64 bits can number. -/
theorem newest_room (h : Ordered cfg lastTime newest nextSeq top stubs)
    (hplain : Plain cfg lastTime)
    (hnone : ∀ b ∈ stubs, b.key ≠ truncate lastTime cfg.interval - epoch) :
    2 * ((nextSeq + 1 : ℕ) : ℤ) ≤ truncate lastTime cfg.interval - epoch + 2 ^ 63 + 4 := by
  have hlow := hplain.start.1
  have hinterval := cfg.hinterval
  rcases h.hnewest with hone | ⟨hdvd, hnow, hbound, ⟨b, hb, rfl⟩ | hpast⟩
  · omega
  · have := add_le_of_dvd hdvd dvd_truncate (h.before hnone b hb)
    omega
  · have := le_truncate cfg.interval_pos (Int.dvd_add hdvd (Int.dvd_refl _)) hpast
    omega

/-- A new bucket for the present moment. -/
theorem push (h : Ordered cfg lastTime newest nextSeq top stubs) (hplain : Plain cfg lastTime)
    (hnone : ∀ b ∈ stubs, b.key ≠ truncate lastTime cfg.interval - epoch) :
    Ordered cfg lastTime (truncate lastTime cfg.interval) (nextSeq + 1) top
      (stubs ++ [⟨truncate lastTime cfg.interval - epoch, truncate lastTime cfg.interval, nextSeq⟩])
    where
  hkey b hb := by
    rcases mem_append.mp hb with hb | hb
    · exact h.hkey b hb
    · obtain rfl := mem_singleton.mp hb
      rfl
  hsorted := by
    refine pairwise_append.mpr ⟨h.hsorted, pairwise_singleton .., ?_⟩
    intro x hx y hy
    obtain rfl := mem_singleton.mp hy
    exact h.before hnone x hx
  hsequences := by
    have hcount := h.hcount
    rw [map_append, h.hsequences, length_append, length_singleton,
      range'_1_concat, map_singleton]
    congr 2
    · omega
    · dsimp only
      omega
  hcount := by
    have hcount := h.hcount
    rw [length_append, length_singleton]
    omega
  hstart b hb := by
    rcases mem_append.mp hb with hb | hb
    · exact h.hstart b hb
    · obtain rfl := mem_singleton.mp hb
      exact ⟨dvd_truncate, truncate_le cfg.interval_pos⟩
  hover b hb hbt := by
    rcases mem_append.mp hb with hb | hb
    · exact h.hover b hb hbt
    · obtain rfl := mem_singleton.mp hb
      exact absurd h.htop (Nat.not_lt.mpr hbt)
  htop := Nat.lt_succ_of_lt h.htop
  hnewest := .inr ⟨dvd_truncate, truncate_le cfg.interval_pos, h.newest_room hplain hnone,
    .inl ⟨_, mem_append_right _ (mem_singleton_self _), rfl⟩⟩

/-- Sequences ascend. -/
theorem ascending (h : Ordered cfg lastTime newest nextSeq top stubs) :
    (stubs.map Stub.sequence).Pairwise (· < ·) := by
  rw [h.hsequences]
  exact pairwise_lt_range'

/-- Starts are in the order of the sequences. -/
theorem start_le (h : Ordered cfg lastTime newest nextSeq top stubs) {x y : Stub} (hx : x ∈ stubs)
    (hy : y ∈ stubs) (hle : x.sequence ≤ y.sequence) : x.start ≤ y.start := by
  have hsequences := pairwise_map.mp h.ascending
  by_contra hlt
  -- the two stand at different places, the later start behind
  obtain ⟨i, hi, rfl⟩ := getElem_of_mem hx
  obtain ⟨j, hj, rfl⟩ := getElem_of_mem hy
  rcases Nat.lt_trichotomy i j with hij | rfl | hij
  · have := pairwise_iff_getElem.mp h.hsorted i j hi hj hij
    omega
  · omega
  · have := pairwise_iff_getElem.mp hsequences j i hj hi hij
    omega

/-- A bucket that is over can be published, with all before it. -/
theorem publish (h : Ordered cfg lastTime newest nextSeq top stubs) {b : Stub} (hb : b ∈ stubs)
    (hover : b.start + cfg.interval ≤ lastTime) :
    Ordered cfg lastTime newest nextSeq (max top b.sequence) stubs := by
  have hnext : b.sequence ∈ range' (nextSeq - stubs.length) stubs.length :=
    h.hsequences ▸ mem_map_of_mem hb
  rw [mem_range'_1] at hnext
  have hcount := h.hcount
  refine { h with hover := fun x hx hle => ?_, htop := max_lt h.htop (by omega) }
  rcases le_max_iff.mp hle with hle | hle
  · exact h.hover x hx hle
  · have := h.start_le hx hb hle
    omega

end Ordered

/-! ## Calls -/

/-- The buckets are in order up to the time of the last call, which was the zero time or was held
    by 64 bits. -/
structure Good (d : DomainTraffic) (top : ℕ) : Prop where
  hclock : d.lastTime = 0 ∨ Plain d.settings d.lastTime
  hordered : ∃ newest, Ordered d.settings d.lastTime newest d.nextSeq top d.stubs

/-- Nothing that orders buckets changed. -/
structure Same (d d' : DomainTraffic) : Prop where
  hboot : d'.bootID = d.bootID
  hsettings : d'.settings = d.settings
  htime : d'.lastTime = d.lastTime
  hnext : d'.nextSeq = d.nextSeq
  hstubs : d'.stubs = d.stubs

theorem Same.refl (d : DomainTraffic) : Same d d := ⟨rfl, rfl, rfl, rfl, rfl⟩

theorem Same.trans {a b c : DomainTraffic} (h : Same a b) (h' : Same b c) : Same a c :=
  ⟨h'.hboot.trans h.hboot, h'.hsettings.trans h.hsettings, h'.htime.trans h.htime,
    h'.hnext.trans h.hnext, h'.hstubs.trans h.hstubs⟩

theorem Good.same {d d' : DomainTraffic} {top : ℕ} (h : Good d top) (hsame : Same d d') :
    Good d' top := by
  obtain ⟨hboot, hsettings, htime, hnext, hstubs⟩ := hsame
  obtain ⟨hclock, newest, hordered⟩ := h
  refine ⟨?_, newest, ?_⟩
  · rw [hsettings, htime]
    exact hclock
  · rw [hsettings, htime, hnext, hstubs]
    exact hordered

namespace DomainTraffic

variable (d : DomainTraffic)

theorem nowLocked_eq (clock : ℤ) :
    d.nowLocked clock = (max d.lastTime clock, { d with lastTime := max d.lastTime clock }) := by
  unfold nowLocked
  split
  · next hlt => rw [max_eq_left hlt.le]
  · next hge => rw [max_eq_right (not_lt.mp hge)]

theorem modifyBucket_same {key : ℤ} {f : DomainTrafficBucket → DomainTrafficBucket}
    (hf : ∀ b, (f b).start = b.start ∧ (f b).sequence = b.sequence) :
    Same d (d.modifyBucket key f) := by
  refine ⟨rfl, rfl, rfl, rfl, ?_⟩
  simp only [stubs, modifyBucket, map_map]
  refine map_congr_left fun b _ => ?_
  simp only [Function.comp_apply, stub]
  split
  · rw [(hf b.2).1, (hf b.2).2]
  · rfl

theorem ensureDomainLocked_same {order : List Text → List Text} {domain : Text}
    {d' : DomainTraffic} (h : d.ensureDomainLocked order domain = some d') : Same d d' := by
  unfold ensureDomainLocked at h
  split at h
  · cases h
    exact .refl d
  split at h
  · cases h
    exact .refl d
  split at h
  · cases h
  · cases h
    refine ⟨rfl, rfl, rfl, rfl, ?_⟩
    simp only [stubs, map_map]
    rfl

theorem addTraffic_same (order : List Text → List Text) (now key : ℤ) (user domain : Text)
    (uplinkBytes downlinkBytes : UInt64) :
    Same d (d.addTraffic order now key user domain uplinkBytes downlinkBytes) := by
  unfold addTraffic
  split
  · exact d.modifyBucket_same fun b => ⟨rfl, rfl⟩
  dsimp only
  split
  · exact .refl d
  · next d₁ hready =>
    have hd₁ : Same d d₁ := by
      split at hready
      · cases hready
        exact .refl d
      · obtain ⟨d₂, hensure, rfl⟩ := Option.map_eq_some_iff.mp hready
        exact (d.ensureDomainLocked_same hensure).trans
          (d₂.modifyBucket_same fun b => ⟨rfl, rfl⟩)
    have hseen : ∀ lastSeen, Same d₁ { d₁ with lastSeen := lastSeen } :=
      fun _ => ⟨rfl, rfl, rfl, rfl, rfl⟩
    exact (hd₁.trans (hseen _)).trans (modifyBucket_same _ fun b => ⟨rfl, rfl⟩)

theorem openBucket_frame (start : ℤ) :
    (d.openBucket start).2.bootID = d.bootID ∧ (d.openBucket start).2.settings = d.settings ∧
      (d.openBucket start).2.lastTime = d.lastTime := by
  unfold openBucket
  dsimp only
  split <;> exact ⟨rfl, rfl, rfl⟩

theorem pruneLocked_stubs {now : ℤ} :
    (d.pruneLocked now).stubs = d.stubs.filter fun b =>
      ¬ b.key < unixNano (truncate (now - d.settings.retention) d.settings.interval) := by
  simp only [stubs, pruneLocked, filter_map]
  rfl

end DomainTraffic

namespace Good

variable {d : DomainTraffic} {top : ℕ}

/-- The time goes on to a plain reading. -/
theorem now (h : Good d top) {clock : ℤ} (hclock : Plain d.settings clock) :
    Plain d.settings (max d.lastTime clock) ∧
      Good { d with lastTime := max d.lastTime clock } top := by
  have hplain : Plain d.settings (max d.lastTime clock) := by
    rcases max_choice d.lastTime clock with hmax | hmax
    · have hle : clock ≤ d.lastTime := by omega
      have hpos := hclock.pos
      rw [hmax]
      exact h.hclock.resolve_left (by omega)
    · rwa [hmax]
  obtain ⟨newest, hordered⟩ := h.hordered
  exact ⟨hplain, .inr hplain, newest, hordered.later (le_max_left ..)⟩

/-- Pruning by a time of the call. -/
theorem prune (h : Good d top) (hplain : Plain d.settings d.lastTime) {now : ℤ}
    (hlow : truncate d.lastTime d.settings.interval ≤ now) (hhigh : now ≤ d.lastTime) :
    Good (d.pruneLocked now) top := by
  obtain ⟨newest, hordered⟩ := h.hordered
  have hpos := d.settings.interval_pos
  have hretention := d.settings.hretention
  have hcut : truncate (now - d.settings.retention) d.settings.interval ≤ d.lastTime :=
    (truncate_le hpos).trans (by omega)
  refine ⟨h.hclock, newest, ?_⟩
  rw [DomainTraffic.pruneLocked_stubs,
    hplain.unixNano (truncate_mono hpos (by omega)) hcut]
  exact hordered.prune dvd_truncate hcut

/-- The bucket that `Record` adds to is not published yet. -/
theorem openBucket (h : Good d top) (hplain : Plain d.settings d.lastTime) :
    Good (d.openBucket (truncate d.lastTime d.settings.interval)).2 top ∧
      top < (d.openBucket (truncate d.lastTime d.settings.interval)).1 ∧
      (d.openBucket (truncate d.lastTime d.settings.interval)).1
        < (d.openBucket (truncate d.lastTime d.settings.interval)).2.nextSeq := by
  obtain ⟨newest, hordered⟩ := h.hordered
  have hkey := hplain.start.2
  unfold DomainTraffic.openBucket
  dsimp only
  split
  · next key bucket hfind =>
    have hb : stub (key, bucket) ∈ d.stubs := mem_map_of_mem (mem_of_find?_eq_some hfind)
    have hstart : bucket.start = truncate d.lastTime d.settings.interval := by
      have hsome := find?_some hfind
      have hstub := hordered.hkey _ hb
      simp only [stub, decide_eq_true_eq] at hsome hstub
      omega
    have hsequence : bucket.sequence ∈ range' (d.nextSeq - d.stubs.length) d.stubs.length :=
      hordered.hsequences ▸ mem_map_of_mem hb
    rw [mem_range'_1] at hsequence
    have hcount := hordered.hcount
    exact ⟨h, hordered.open_fresh hb hstart, by dsimp only; omega⟩
  · next hfind =>
    have hnone : ∀ b ∈ d.stubs, b.key ≠ truncate d.lastTime d.settings.interval - epoch := by
      intro b hb
      obtain ⟨bucket, hbucket, rfl⟩ := mem_map.mp hb
      have hne := find?_eq_none.mp hfind bucket hbucket
      simpa [hkey, stub] using hne
    have hroom := hordered.newest_room hplain hnone
    have hhigh := hplain.2
    have hle := truncate_le (t := d.lastTime) d.settings.interval_pos
    have hmod : (d.nextSeq + 1) % 2 ^ 64 = d.nextSeq + 1 := Nat.mod_eq_of_lt (by omega)
    refine ⟨⟨h.hclock, truncate d.lastTime d.settings.interval, ?_⟩, hordered.htop, ?_⟩
    · rw [hmod, hkey]
      have hpush := hordered.push hplain hnone
      simpa only [DomainTraffic.stubs, map_append, map_singleton, stub] using hpush
    · dsimp only
      omega

end Good

/-! ## Pages -/

namespace DomainTraffic

variable (d : DomainTraffic)

/-- The buckets that a call can return. -/
def eligible (now : ℤ) (q : Query) (b : DomainTrafficBucket) : Bool :=
  ¬ (q.afterBootID = d.bootID ∧ b.sequence ≤ q.afterSequence) ∧
    ¬ b.start + d.settings.interval > now

/-- The sequences of these buckets. -/
def published (now : ℤ) (q : Query) : List ℕ :=
  ((d.buckets.map (·.2)).filter (d.eligible now q)).map DomainTrafficBucket.sequence

/-- The loop of `Snapshot` returns a front part of what it can return. -/
theorem collect_eq (now : ℤ) (q : Query) (l : List DomainTrafficBucket) (pages : List Page) :
    ∃ k, d.collect now q l pages =
      pages ++ ((l.filter (d.eligible now q)).map (d.page q)).take k := by
  induction l generalizing pages with
  | nil => exact ⟨0, by simp [collect]⟩
  | cons b rest ih =>
    by_cases hcursor : q.afterBootID = d.bootID ∧ b.sequence ≤ q.afterSequence
    · have hskip : ¬ d.eligible now q b = true := by
        simp [eligible, hcursor]
      rw [collect, if_pos hcursor, filter_cons_of_neg hskip]
      exact ih pages
    by_cases hopen : b.start + d.settings.interval > now
    · have hskip : ¬ d.eligible now q b = true := by
        simp [eligible, hopen]
      rw [collect, if_neg hcursor, if_pos hopen, filter_cons_of_neg hskip]
      exact ih pages
    have htake : d.eligible now q b = true := by
      simp only [eligible, decide_eq_true_eq]
      exact ⟨hcursor, hopen⟩
    rw [collect, if_neg hcursor, if_neg hopen, filter_cons_of_pos htake, map_cons]
    dsimp only
    split
    · exact ⟨1, by simp⟩
    · obtain ⟨k, hk⟩ := ih (pages ++ [d.page q b])
      exact ⟨k + 1, by rw [hk, take_succ_cons, append_assoc, singleton_append]⟩

end DomainTraffic

namespace Good

variable {d : DomainTraffic} {top : ℕ}

/-- The buckets are sorted already. -/
theorem sorted_eq (h : Good d top) : d.sorted = d.buckets.map (·.2) := by
  obtain ⟨newest, hordered⟩ := h.hordered
  unfold DomainTraffic.sorted
  rw [List.Pairwise.insertionSort_eq]
  have hsorted := pairwise_map.mp hordered.hsorted
  refine hsorted.imp_of_mem fun {x y} hx hy hlt => ?_
  have hkx := hordered.hkey (stub x) (mem_map_of_mem hx)
  have hky := hordered.hkey (stub y) (mem_map_of_mem hy)
  simp only [stub] at hkx hky hlt ⊢
  omega

/-- The sequences of a response are a front part of an ascending list, which has the sequences of
    all buckets behind the cursor that are over. -/
theorem respond_eq (h : Good d top) (q : Query) :
    (d.published d.lastTime q).Pairwise (· < ·) ∧
      ∃ k, (d.respond d.lastTime q).buckets.map Page.sequence =
        (d.published d.lastTime q).take k := by
  constructor
  · obtain ⟨newest, hordered⟩ := h.hordered
    have hascending := hordered.ascending
    rw [DomainTraffic.stubs, map_map] at hascending
    have hall : ((d.buckets.map (·.2)).map DomainTrafficBucket.sequence).Pairwise (· < ·) := by
      rw [map_map]
      exact hascending
    exact hall.sublist (filter_sublist.map _)
  · unfold DomainTraffic.respond
    split
    · exact ⟨0, rfl⟩
    · next first rest hsorted =>
      obtain ⟨k, hk⟩ := d.collect_eq d.lastTime q (first :: rest) []
      refine ⟨k, ?_⟩
      rw [h.sorted_eq] at hsorted
      dsimp only
      rw [hk, nil_append, map_take, map_map, ← hsorted]
      rfl

variable {q : Query}

/-- A bucket of a response is behind the cursor and is over. -/
theorem respond_mem (h : Good d top) {n : ℕ}
    (hn : n ∈ (d.respond d.lastTime q).buckets.map Page.sequence) :
    ∃ b ∈ d.stubs, b.sequence = n ∧ b.start + d.settings.interval ≤ d.lastTime ∧
      (q.afterBootID = d.bootID → q.afterSequence < n) := by
  obtain ⟨-, k, hk⟩ := h.respond_eq q
  rw [hk] at hn
  obtain ⟨b, hb, rfl⟩ := mem_map.mp (mem_of_mem_take hn)
  obtain ⟨hmem, heligible⟩ := mem_filter.mp hb
  obtain ⟨kb, hkb, rfl⟩ := mem_map.mp hmem
  simp only [DomainTraffic.eligible, decide_eq_true_eq, not_and, not_le, not_lt] at heligible
  exact ⟨stub kb, mem_map_of_mem hkb, rfl, heligible.2, heligible.1⟩

/-- What a response leaves out before one of its buckets was dropped, and the response says so. -/
theorem respond_gap (h : Good d top) (hid : q.afterBootID = d.bootID) {n m : ℕ}
    (hm : m ∈ (d.respond d.lastTime q).buckets.map Page.sequence)
    (hn : n ∉ (d.respond d.lastTime q).buckets.map Page.sequence)
    (hafter : q.afterSequence < n) (hlt : n < m) : (d.respond d.lastTime q).hasGap = true := by
  obtain ⟨newest, hordered⟩ := h.hordered
  obtain ⟨b, hb, rfl, hover, -⟩ := h.respond_mem hm
  obtain ⟨hascending, k, hk⟩ := h.respond_eq q
  rw [hk] at hm hn
  -- a bucket that is left and stands behind the cursor would be in the response
  have habsent : ∀ x ∈ d.buckets, x.2.sequence ≠ n := by
    rintro x hx rfl
    have hle := hordered.start_le (mem_map_of_mem hx) hb hlt.le
    apply hn
    refine mem_take_of_lt hascending hm (mem_map_of_mem (mem_filter.mpr
      ⟨mem_map_of_mem hx, ?_⟩)) hlt
    simp only [stub] at hle
    simp only [DomainTraffic.eligible, decide_eq_true_eq]
    exact ⟨fun hc => absurd hc.2 (by omega), by omega⟩
  -- the sequences that are left have no hole, so that it is before all of them
  have hrange : n ∉ range' (d.nextSeq - d.stubs.length) d.stubs.length := by
    rw [← hordered.hsequences, DomainTraffic.stubs, map_map]
    intro hmem
    obtain ⟨x, hx, hxn⟩ := mem_map.mp hmem
    exact habsent x hx hxn
  have hlast : b.sequence ∈ range' (d.nextSeq - d.stubs.length) d.stubs.length :=
    hordered.hsequences ▸ mem_map_of_mem hb
  rw [mem_range'_1] at hrange hlast
  have hfirst : ∀ x ∈ d.buckets, n < x.2.sequence := by
    intro x hx
    have hxr : (stub x).sequence ∈ range' (d.nextSeq - d.stubs.length) d.stubs.length :=
      hordered.hsequences ▸ mem_map_of_mem (mem_map_of_mem hx)
    rw [mem_range'_1] at hxr
    simp only [stub] at hxr
    omega
  have hsorted := h.sorted_eq
  unfold DomainTraffic.respond
  split
  · next hnil =>
    rw [hnil] at hsorted
    obtain ⟨x, hx, -⟩ := mem_map.mp hb
    rw [map_eq_nil_iff.mp hsorted.symm] at hx
    cases hx
  · next first rest hcons =>
    have hmem : first ∈ d.buckets.map (·.2) := by
      rw [← hsorted, hcons]
      exact mem_cons_self ..
    obtain ⟨x, hx, rfl⟩ := mem_map.mp hmem
    have := hfirst x hx
    simp only [decide_eq_true_eq]
    exact ⟨hid, by omega, by omega⟩

/-- What `Record` does once it has the time. -/
theorem recordAt (h : Good d top) (hplain : Plain d.settings d.lastTime)
    (order : List Text → List Text) (now key : ℤ) (user domain : Text)
    (uplinkBytes downlinkBytes : UInt64) :
    let start := truncate d.lastTime d.settings.interval
    let opened := (d.pruneLocked start).openBucket start
    let after := opened.2.addTraffic order now key user domain uplinkBytes downlinkBytes
    Good after top ∧ top < opened.1 ∧ after.bootID = d.bootID ∧ after.settings = d.settings := by
  intro start opened after
  have hpruned : Good (d.pruneLocked start) top :=
    h.prune hplain (le_refl _) (truncate_le d.settings.interval_pos)
  obtain ⟨hopened, hfresh, -⟩ := hpruned.openBucket hplain
  obtain ⟨hboot, hsettings, -⟩ := (d.pruneLocked start).openBucket_frame start
  have hsame := opened.2.addTraffic_same order now key user domain uplinkBytes downlinkBytes
  exact ⟨hopened.same hsame, hfresh, hsame.hboot.trans hboot, hsame.hsettings.trans hsettings⟩

/-- `Record` keeps the order, and adds to a bucket that is not published yet. -/
theorem record (h : Good d top) {clock : ℤ} (hclock : Plain d.settings clock)
    (text : TextFunctions) (order : List Text → List Text) (domain : Text)
    (uplinkBytes downlinkBytes : UInt64) (users : List Text) :
    let recorded := d.record text order clock domain uplinkBytes downlinkBytes users
    Good recorded.2 top ∧ top < recorded.1 ∧ recorded.2.bootID = d.bootID ∧
      recorded.2.settings = d.settings := by
  obtain ⟨hplain, hnow⟩ := h.now hclock
  unfold DomainTraffic.record
  rw [DomainTraffic.nowLocked_eq]
  exact hnow.recordAt hplain ..

/-- `Snapshot` keeps the order. -/
theorem snapshot (h : Good d top) {clock : ℤ} (hclock : Plain d.settings clock) (q : Query) :
    let result := d.snapshot clock q
    Good result.2 top ∧ result.2.bootID = d.bootID ∧ result.2.settings = d.settings ∧
      result.1 = result.2.respond result.2.lastTime q := by
  obtain ⟨hplain, hnow⟩ := h.now hclock
  unfold DomainTraffic.snapshot
  rw [DomainTraffic.nowLocked_eq]
  exact ⟨hnow.prune hplain (truncate_le d.settings.interval_pos) (le_refl _), rfl, rfl, rfl⟩

/-- A bucket of a response is published from then on. -/
theorem publish (h : Good d top) {n : ℕ}
    (hn : n ∈ (d.respond d.lastTime q).buckets.map Page.sequence) : Good d (max top n) := by
  obtain ⟨b, hb, rfl, hover, -⟩ := h.respond_mem hn
  obtain ⟨newest, hordered⟩ := h.hordered
  exact ⟨h.hclock, newest, hordered.publish hb hover⟩

end Good

/-! ## Runs -/

/-- The traffic, the buckets that were ever recorded, and the sequences a consumer received. -/
structure Following where
  traffic : DomainTraffic
  recorded : List ℕ
  received : List ℕ

/-- A call at a reading of the clock: `Record`, or `Snapshot` by another reader or by the
    consumer. -/
inductive Action
  | record (order : List Text → List Text) (clock : ℤ) (domain : Text)
      (uplinkBytes downlinkBytes : UInt64) (users : List Text)
  | snapshot (clock : ℤ) (q : Query)
  | consume (clock : ℤ) (q : Query)

def Action.clock : Action → ℤ
  | record _ clock .. => clock
  | snapshot clock .. => clock
  | consume clock .. => clock

/-- One call. Once the consumer has received a bucket, it passes the boot id and the last sequence
    it received. -/
def step (text : TextFunctions) (s : Following) : Action → Option Following
  | .record order clock domain uplinkBytes downlinkBytes users =>
    let (sequence, traffic) :=
      s.traffic.record text order clock domain uplinkBytes downlinkBytes users
    some { s with traffic := traffic, recorded := s.recorded ++ [sequence] }
  | .snapshot clock q => some { s with traffic := (s.traffic.snapshot clock q).2 }
  | .consume clock q =>
    if s.received = [] ∨
        q.afterBootID = s.traffic.bootID ∧ s.received.getLast? = some q.afterSequence then
      let (response, traffic) := s.traffic.snapshot clock q
      some { s with
        traffic := traffic
        received := s.received ++ response.buckets.map Page.sequence }
    else none

/-- The order of what the consumer received and of what there is. -/
structure Follows (s : Following) : Prop where
  hgood : Good s.traffic (s.received.getLastD 0)
  hreceived : s.received.Pairwise (· < ·)

theorem le_getLastD {l : List ℕ} (h : l.Pairwise (· < ·)) {x : ℕ} (hx : x ∈ l) :
    x ≤ l.getLastD 0 := by
  have hne : l ≠ [] := ne_nil_of_mem hx
  rw [getLastD_eq_getLast?, getLast?_eq_some_getLast hne, Option.getD_some]
  rw [← dropLast_append_getLast hne] at h hx
  rcases mem_append.mp hx with hx | hx
  · exact ((pairwise_append.mp h).2.2 x hx _ (mem_singleton_self _)).le
  · exact (mem_singleton.mp hx).le

namespace Follows

variable {text : TextFunctions} {s s' : Following}

/-- The consumer gets a response. -/
theorem consume (h : Follows s) {clock : ℤ} (hclock : Plain s.traffic.settings clock) {q : Query}
    (hcursor : s.received = [] ∨
      q.afterBootID = s.traffic.bootID ∧ s.received.getLast? = some q.afterSequence) :
    let result := s.traffic.snapshot clock q
    Follows { s with
      traffic := result.2
      received := s.received ++ result.1.buckets.map Page.sequence } := by
  obtain ⟨hgood, hboot, -, hresponse⟩ := h.hgood.snapshot hclock q
  dsimp only at hgood hboot hresponse ⊢
  rw [hresponse]
  generalize (s.traffic.snapshot clock q).2 = traffic at hgood hboot ⊢
  obtain ⟨hpublished, k, hk⟩ := hgood.respond_eq q
  have hascending : ((traffic.respond traffic.lastTime q).buckets.map Page.sequence).Pairwise
      (· < ·) :=
    hk ▸ hpublished.sublist (take_sublist ..)
  -- everything new is behind everything received before
  have hbehind : ∀ x ∈ s.received,
      ∀ n ∈ (traffic.respond traffic.lastTime q).buckets.map Page.sequence, x < n := by
    intro x hx n hn
    have hle := le_getLastD h.hreceived hx
    rcases hcursor with hnil | ⟨hid, hlast⟩
    · rw [hnil] at hx
      cases hx
    · obtain ⟨b, -, -, -, hafter⟩ := hgood.respond_mem hn
      have hlt := hafter (hid.trans hboot.symm)
      rw [getLastD_eq_getLast?, hlast, Option.getD_some] at hle
      omega
  refine ⟨?_, pairwise_append.mpr ⟨h.hreceived, hascending, hbehind⟩⟩
  generalize hpages : (traffic.respond traffic.lastTime q).buckets.map Page.sequence =
      pages at hbehind ⊢
  dsimp only
  cases hlast : pages.getLast? with
  | none =>
    rw [getLast?_eq_none_iff.mp hlast, append_nil]
    exact hgood
  | some n =>
    have hn : n ∈ pages := mem_of_getLast? hlast
    have hpublish := hgood.publish (hpages ▸ hn)
    have hmax : max (s.received.getLastD 0) n = n := by
      apply max_eq_right
      rw [getLastD_eq_getLast?]
      cases hreceived : s.received.getLast? with
      | none => exact Nat.zero_le n
      | some x => exact (hbehind x (mem_of_getLast? hreceived) n hn).le
    rw [getLastD_eq_getLast?, getLast?_append, hlast, Option.some_or, Option.getD_some]
    rwa [hmax] at hpublish

/-- Every call at a plain reading of the clock keeps the order. -/
theorem step (h : Follows s) {a : Action} (hclock : Plain s.traffic.settings a.clock)
    (hstep : Stats.step text s a = some s') :
    Follows s' ∧ s'.traffic.settings = s.traffic.settings := by
  cases a with
  | record order clock domain uplinkBytes downlinkBytes users =>
    cases hstep
    obtain ⟨hgood, -, -, hsettings⟩ :=
      h.hgood.record hclock text order domain uplinkBytes downlinkBytes users
    exact ⟨⟨hgood, h.hreceived⟩, hsettings⟩
  | snapshot clock q =>
    cases hstep
    obtain ⟨hgood, -, hsettings, -⟩ := h.hgood.snapshot hclock q
    exact ⟨⟨hgood, h.hreceived⟩, hsettings⟩
  | consume clock q =>
    simp only [Stats.step] at hstep
    split at hstep
    · next hcursor =>
      cases hstep
      obtain ⟨-, -, hsettings, -⟩ := h.hgood.snapshot hclock q
      exact ⟨h.consume hclock hcursor, hsettings⟩
    · cases hstep

end Follows

theorem follows_new (bootID : Text) (interval retention maxDomains : UInt32) :
    Follows ⟨newDomainTraffic bootID interval retention maxDomains, [], []⟩ where
  hgood := ⟨.inl rfl, 0, nofun, .nil, rfl, Nat.one_pos, nofun, nofun, Nat.one_pos, .inl rfl⟩
  hreceived := .nil

/-- In every run of calls at readings of the clock that 64 bits hold, in any order of them: the
    sequences that a consumer received ascend, no `Record` after it adds to a bucket it received,
    and a response that leaves out a recorded bucket behind the cursor, before one that it has,
    says so. -/
theorem domain_traffic_pages_in_order (text : TextFunctions) (bootID : Text)
    (interval retention maxDomains : UInt32) {actions : List Action} {s : Following}
    (hclock : ∀ a ∈ actions,
      Plain (newDomainTraffic bootID interval retention maxDomains).settings a.clock)
    (hrun : run (step text) actions
      ⟨newDomainTraffic bootID interval retention maxDomains, [], []⟩ = some s) :
    s.received.Pairwise (· < ·) ∧
    (∀ order clock domain uplinkBytes downlinkBytes users, Plain s.traffic.settings clock →
      (s.traffic.record text order clock domain uplinkBytes downlinkBytes users).1
        ∉ s.received) ∧
    ∀ clock q, Plain s.traffic.settings clock → q.afterBootID = s.traffic.bootID →
      let response := (s.traffic.snapshot clock q).1
      ∀ m ∈ response.buckets.map Page.sequence, ∀ n ∈ s.recorded, q.afterSequence < n → n < m →
        n ∉ response.buckets.map Page.sequence → response.hasGap = true := by
  have hkept : Follows s ∧
      s.traffic.settings = (newDomainTraffic bootID interval retention maxDomains).settings := by
    refine run_closed (P := fun s => Follows s ∧ s.traffic.settings =
      (newDomainTraffic bootID interval retention maxDomains).settings) ?_
      ⟨follows_new bootID interval retention maxDomains, rfl⟩ hrun
    intro a ha s₁ s₂ hs hstep
    obtain ⟨hfollows, hsettings⟩ := hs.1.step (hs.2 ▸ hclock a ha) hstep
    exact ⟨hfollows, hsettings.trans hs.2⟩
  obtain ⟨hfollows, -⟩ := hkept
  refine ⟨hfollows.hreceived, ?_, ?_⟩
  · intro order clock domain uplinkBytes downlinkBytes users hplain hmem
    obtain ⟨-, hfresh, -⟩ :=
      hfollows.hgood.record hplain text order domain uplinkBytes downlinkBytes users
    have := le_getLastD hfollows.hreceived hmem
    omega
  · intro clock q hplain hid response m hm n _ hafter hlt hn
    obtain ⟨hgood, hboot, -, hresponse⟩ := hfollows.hgood.snapshot hplain q
    have hsame : response = _ := hresponse
    rw [hsame] at hm hn ⊢
    exact hgood.respond_gap (hid.trans hboot.symm) hm hn hafter hlt

/-- Texts that are trimmed and in lower case already. -/
def plainText : TextFunctions := ⟨id, id⟩

/-- Two records with a rollback of the clock between them, and the consumer after each. -/
def rollback : List Action :=
  [.record id (epoch + 1790000003 * 10 ^ 9) [97] 1 2 [],
    .consume (epoch + 1790000010 * 10 ^ 9) ⟨[1], 0, 0, id⟩,
    .record id (epoch + 1790000001 * 10 ^ 9) [97] 3 4 [],
    .consume (epoch + 1790000020 * 10 ^ 9) ⟨[1], 1, 0, id⟩]

theorem domain_traffic_pages_in_order_rollback :
    ∃ s, run (step plainText) rollback ⟨newDomainTraffic [1] 5 300 0, [], []⟩ = some s ∧
      s.received = [1, 2] ∧ s.received.Pairwise (· < ·) := by
  have hrun : (run (step plainText) rollback
      ⟨newDomainTraffic [1] 5 300 0, [], []⟩).map (·.received) = some [1, 2] := by
    decide
  obtain ⟨s, hs, hreceived⟩ := Option.map_eq_some_iff.mp hrun
  exact ⟨s, hs, hreceived,
    (domain_traffic_pages_in_order plainText [1] 5 300 0 (by decide) hs).1⟩

/-- The clock jumps to the year 2300, which 64 bits of nanoseconds do not reach. -/
def lateClock : List Action :=
  [.record id (epoch + 1790000000 * 10 ^ 9) [97] 1 2 [],
    .record id (epoch + 10413792000 * 10 ^ 9) [97] 3 4 [],
    .consume (epoch + 10413792005 * 10 ^ 9) ⟨[1], 0, 0, id⟩]

/-- The key of the later bucket is negative, so that it comes first in the page. -/
theorem late_clock_reverses_pages :
    ∃ s, run (step plainText) lateClock ⟨newDomainTraffic [1] 5 300 0, [], []⟩ = some s ∧
      s.received = [2, 1] ∧ ¬ s.received.Pairwise (· < ·) := by
  have hrun : (run (step plainText) lateClock
      ⟨newDomainTraffic [1] 5 300 0, [], []⟩).map (·.received) = some [2, 1] := by
    decide
  obtain ⟨s, hs, hreceived⟩ := Option.map_eq_some_iff.mp hrun
  refine ⟨s, hs, hreceived, ?_⟩
  rw [hreceived]
  decide

end XrayCore.Stats
