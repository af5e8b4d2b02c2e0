/-
  XrayCore.FakeDns.Holder

  The holder of a fake DNS pool: addresses for domains, and domains for addresses.

  A run is any sequence of calls at any readings of the clock. `Holder.Inv` is what every call
  keeps when the first byte of the pool is not zero, and `fakedns_one_to_one_iff` says that this
  byte decides: with a zero in front the first address already has too few bytes.
-/

import XrayCore.Cache.Lru
import XrayCore.FakeDns.Pool
import XrayCore.Machine.Run

namespace XrayCore.FakeDns

open Bytes Cache Machine Protocol Wire Relation Option

/-! ## The holder -/

/-- The test `math.Log2(float64(n)) >= float64(rooms)`. The logarithm grows with `n` and is exact
    for powers of two; what it is for a number that is not positive is left open. -/
structure Log2Test where
  atLeast : ℤ → ℕ → Bool
  hpow : ∀ (n : ℤ) (rooms : ℕ), 2 ^ rooms ≤ n → atLeast n rooms = true

structure Holder where
  domainToIP : Lru String (Option Address)
  ipRange : IPNet

namespace Holder

/-- `initialize`, with what `net.ParseCIDR` makes of the pool. -/
def initializeHolder (log2 : Log2Test) (ipPoolCidr : Option IPNet) (lruSize : ℤ) :
    Except String Holder :=
  match ipPoolCidr with
  | none => .error "Unable to parse CIDR for Fake DNS IP assignment"
  | some ipRange =>
    if log2.atLeast lruSize ipRange.rooms then .error "LRU size is bigger than subnet size"
    else .ok ⟨.new lruSize, ipRange⟩

/-- Where the search for an address starts, by the milliseconds of the clock. -/
def start (n : IPNet) (millis : ℕ) : ℕ :=
  bigEndian n.ip + if n.rooms < 64 then millis % 2 ^ n.rooms else millis

/-- `GetFakeIPForDomain`: the address it returns, `none` for `nil`, or its panic; no result if
    the search needs more fuel. -/
def getFakeIPForDomain (fuel : ℕ) (h : Holder) (domain : String) (millis : ℕ) :
    Option (Except String (Option Address) × Holder) :=
  match h.domainToIP.get domain with
  | (some (some ip), cache) => some (.ok (some ip), { h with domainToIP := cache })
  | (some none, cache) => some
      (.error "interface conversion: interface is nil, not net.Address",
        { h with domainToIP := cache })
  | (none, _) =>
    let inUse := fun ip => (h.domainToIP.peekKeyFromValue ip).isSome
    (h.ipRange.probe inUse fuel (start h.ipRange millis)).map fun ip =>
      (.ok ip, { h with domainToIP := h.domainToIP.put domain ip })

/-- `GetDomainFromFakeDNS`. -/
def getDomainFromFakeDNS (h : Holder) (ip : Address) : String × Holder :=
  match addressIP ip with
  | none => ("", h)
  | some bytes =>
    if h.ipRange.contains bytes then
      match h.domainToIP.getKeyFromValue (some ip) with
      | (some domain, cache) => (domain, { h with domainToIP := cache })
      | (none, cache) => ("", { h with domainToIP := cache })
    else ("", h)

/-- One call, at any reading of the clock. -/
inductive Step : Holder → Holder → Prop
  | fakeIP {h h' : Holder} {result : Except String (Option Address)} (fuel : ℕ) (domain : String)
      (millis : ℕ) (hmillis : millis < 2 ^ 64)
      (hcall : h.getFakeIPForDomain fuel domain millis = some (result, h')) : Step h h'
  | domainOf {h : Holder} (ip : Address) : Step h (h.getDomainFromFakeDNS ip).2

/-- The domain is in the cache, with an address. -/
def Caches (h : Holder) (domain : String) (ip : Option Address) : Prop :=
  (h.domainToIP.get domain).1 = some ip

/-- A run after whose calls the domain is still in the cache. -/
def KeepsDomain (domain : String) (h h' : Holder) : Prop := Step h h' ∧ ∃ ip, h'.Caches domain ip

/-- What is asked of a holder at any time. -/
structure OneToOne (h : Holder) : Prop where
  /-- a call ends -/
  hends : ∀ domain millis, millis < 2 ^ 64 →
    ∃ fuel, (h.getFakeIPForDomain fuel domain millis).isSome
  /-- it returns an address of the pool, which leads back to the domain until that is evicted -/
  hreturns : ∀ fuel domain millis result h', millis < 2 ^ 64 →
    h.getFakeIPForDomain fuel domain millis = some (result, h') →
    ∃ ip, result = .ok (some ip) ∧ h.ipRange.Holds ip ∧
      ((∃ other, h'.Caches domain other) → ∀ later, ReflTransGen (KeepsDomain domain) h' later →
        (later.getDomainFromFakeDNS ip).1 = domain)
  /-- two domains have two addresses -/
  hdistinct : ∀ domain other ip, h.Caches domain ip → h.Caches other ip → domain = other

/-! ## Pools whose first byte is not zero -/

theorem start_eq (n : IPNet) {millis : ℕ} (hmillis : millis < 2 ^ 64) :
    ∃ k < 2 ^ n.rooms, start n millis = bigEndian n.ip + k := by
  unfold start
  split
  · exact ⟨_, Nat.mod_lt _ (Nat.two_pow_pos _), rfl⟩
  · next hrooms =>
    have hpow : 2 ^ 64 ≤ 2 ^ n.rooms := Nat.pow_le_pow_right (by decide) (by omega)
    exact ⟨millis, by omega, rfl⟩

/-- The maps of the cache agree, it has room in the pool, and all its addresses are of the pool. -/
structure Inv (h : Holder) : Prop where
  hleads : h.ipRange.Leads
  hok : h.domainToIP.Ok
  hroom : h.domainToIP.capacity < 2 ^ h.ipRange.rooms
  hsize : (h.domainToIP.order.length : ℤ) ≤ max h.domainToIP.capacity 0
  hpool : ∀ domain ip, (domain, ip) ∈ h.domainToIP.entries → ∃ a, ip = some a ∧ h.ipRange.Holds a

variable {h h' : Holder}

theorem inv_initializeHolder {log2 : Log2Test} {pool : IPNet} {lruSize : ℤ}
    (hinit : initializeHolder log2 (some pool) lruSize = .ok h) (hleads : pool.Leads) : h.Inv := by
  simp only [initializeHolder] at hinit
  split at hinit
  · cases hinit
  next htest =>
  cases hinit
  refine ⟨hleads, Lru.ok_new _, ?_, by simp [Lru.new], fun _ _ hin => (nomatch hin)⟩
  by_contra hbig
  exact htest (log2.hpow _ _ (not_lt.mp hbig))

variable {domain : String}

theorem Inv.caches_iff (hinv : h.Inv) {ip : Option Address} :
    h.Caches domain ip ↔ (domain, ip) ∈ h.domainToIP.entries :=
  (hinv.hok.get domain).1 ip

/-- Reading the cache keeps all. -/
theorem Inv.kept (hinv : h.Inv) {cache : Lru String (Option Address)}
    (hkept : Lru.Kept h.domainToIP cache) : Inv { h with domainToIP := cache } where
  hleads := hinv.hleads
  hok := hkept.hok
  hroom := hkept.hcapacity ▸ hinv.hroom
  hsize := by
    dsimp only
    rw [hkept.hlength, hkept.hcapacity]
    exact hinv.hsize
  hpool domain ip hin := hinv.hpool domain ip ((hkept.hentries domain ip).mp hin)

/-- What a call of `GetFakeIPForDomain` leaves: an address of the pool for the domain, which was
    there before or is the only new pair. -/
structure Given (h h' : Holder) (domain : String) (ip : Address) : Prop where
  hholds : h.ipRange.Holds ip
  hinv : h'.Inv
  hrange : h'.ipRange = h.ipRange
  hentries : ∀ d v, (d, v) ∈ h'.domainToIP.entries → (d, v) ∈ h.domainToIP.entries ∨
    d = domain ∧ v = some ip ∧ ∀ w, (domain, w) ∉ h.domainToIP.entries
  hgiven : ∀ v, (domain, v) ∈ h'.domainToIP.entries → v = some ip

theorem Inv.getFakeIPForDomain (hinv : h.Inv) {fuel millis : ℕ}
    {result : Except String (Option Address)} (hmillis : millis < 2 ^ 64)
    (hcall : h.getFakeIPForDomain fuel domain millis = some (result, h')) :
    ∃ ip, result = .ok (some ip) ∧ Given h h' domain ip := by
  obtain ⟨hfound, hkept⟩ := hinv.hok.get domain
  unfold Holder.getFakeIPForDomain at hcall
  split at hcall
  · next ip cache hget =>
    rw [hget] at hfound hkept
    have hin := (hfound (some ip)).mp rfl
    obtain ⟨a, ha, hholds⟩ := hinv.hpool domain _ hin
    cases ha
    cases hcall
    refine ⟨ip, rfl, hholds, hinv.kept hkept, rfl, ?_, ?_⟩
    · exact fun d v hv => .inl ((hkept.hentries d v).mp hv)
    · exact fun v hv => hinv.hok.value_unique ((hkept.hentries domain v).mp hv) hin
  · next cache hget =>
    rw [hget] at hfound
    obtain ⟨a, ha, -⟩ := hinv.hpool domain none ((hfound none).mp rfl)
    cases ha
  · next cache hget =>
    rw [hget] at hfound
    -- neither the domain nor the address that the probe finds is in the table
    have hfresh : ∀ w, (domain, w) ∉ h.domainToIP.entries := fun w hw => by
      cases (hfound w).mpr hw
    obtain ⟨k, hk, hstart⟩ := start_eq h.ipRange hmillis
    obtain ⟨ip, hprobe, hresult⟩ := map_eq_some_iff.mp hcall
    rw [hstart] at hprobe
    obtain ⟨hunused, j, hj, hip⟩ := hinv.hleads.probe_some hk hprobe
    obtain ⟨a, ha, -⟩ := hinv.hleads.exists_address hj
    rw [ha] at hip
    subst hip
    have hholds := hinv.hleads.holds hj ha
    have hnew : ∀ d, (d, some a) ∉ h.domainToIP.entries := by
      intro d hd
      have := (hinv.hok.peekKeyFromValue_isSome (some a)).mpr ⟨d, hd⟩
      rw [this] at hunused
      cases hunused
    obtain ⟨hok, hcapacity, hsize, hentries⟩ := hinv.hok.put hfresh hnew hinv.hsize
    cases hresult
    refine ⟨a, rfl, hholds, ⟨hinv.hleads, hok, ?_, ?_, ?_⟩, rfl, ?_, ?_⟩
    · exact hcapacity ▸ hinv.hroom
    · exact hcapacity ▸ hsize
    · intro d v hv
      rcases hentries d v hv with heq | hv
      · cases heq
        exact ⟨a, rfl, hholds⟩
      · exact hinv.hpool d v hv
    · intro d v hv
      rcases hentries d v hv with heq | hv
      · cases heq
        exact .inr ⟨rfl, rfl, hfresh⟩
      · exact .inl hv
    · intro v hv
      rcases hentries domain v hv with heq | hv
      · cases heq
        rfl
      · exact absurd hv (hfresh v)

theorem Inv.getDomainFromFakeDNS (hinv : h.Inv) (ip : Address) :
    (h.getDomainFromFakeDNS ip).2.Inv ∧
      (∀ d v, (d, v) ∈ (h.getDomainFromFakeDNS ip).2.domainToIP.entries ↔
        (d, v) ∈ h.domainToIP.entries) ∧
      (h.getDomainFromFakeDNS ip).2.ipRange = h.ipRange := by
  obtain ⟨-, hkept⟩ := hinv.hok.getKeyFromValue (some ip)
  unfold Holder.getDomainFromFakeDNS
  split
  · exact ⟨hinv, fun _ _ => Iff.rfl, rfl⟩
  split
  · split
    · next domain cache hget =>
      rw [hget] at hkept
      exact ⟨hinv.kept hkept, hkept.hentries, rfl⟩
    · next cache hget =>
      rw [hget] at hkept
      exact ⟨hinv.kept hkept, hkept.hentries, rfl⟩
  · exact ⟨hinv, fun _ _ => Iff.rfl, rfl⟩

/-- The address of a domain in the cache leads back to it. -/
theorem Inv.domain_of_entry (hinv : h.Inv) {ip : Address}
    (hin : (domain, some ip) ∈ h.domainToIP.entries) : (h.getDomainFromFakeDNS ip).1 = domain := by
  obtain ⟨a, ha, bytes, hbytes, hcontains⟩ := hinv.hpool domain _ hin
  cases ha
  have hfound := ((hinv.hok.getKeyFromValue (some ip)).1 domain).mpr hin
  unfold Holder.getDomainFromFakeDNS
  rw [hbytes]
  dsimp only
  rw [if_pos hcontains]
  split
  · next d cache hget =>
    rw [hget] at hfound
    exact some.inj hfound
  · next cache hget =>
    rw [hget] at hfound
    cases hfound

/-! ## Runs -/

/-- A call keeps the holder in order, and a domain in the cache keeps its address until it is
    evicted. -/
theorem Inv.step (hinv : h.Inv) (hstep : Step h h') :
    h'.Inv ∧ ∀ domain v w, (domain, v) ∈ h.domainToIP.entries →
      (domain, w) ∈ h'.domainToIP.entries → v = w := by
  cases hstep with
  | fakeIP fuel d millis hmillis hcall =>
    obtain ⟨ip, -, hgiven⟩ := hinv.getFakeIPForDomain hmillis hcall
    refine ⟨hgiven.hinv, fun domain v w hv hw => ?_⟩
    rcases hgiven.hentries domain w hw with hw | ⟨rfl, -, hfresh⟩
    · exact hinv.hok.value_unique hv hw
    · exact absurd hv (hfresh v)
  | domainOf ip =>
    obtain ⟨hnext, hentries, -⟩ := hinv.getDomainFromFakeDNS ip
    exact ⟨hnext, fun domain v w hv hw =>
      hinv.hok.value_unique hv ((hentries domain w).mp hw)⟩

theorem Inv.reach (hinv : h.Inv) (hreach : ReflTransGen Step h h') : h'.Inv :=
  reach_closed (P := Inv) (fun _ hx _ hstep => (hx.step hstep).1) hinv hreach

/-- As long as the domain is not evicted, its address leads back to it. -/
theorem Inv.leads_back (hinv : h.Inv) {ip : Address} {later : Holder}
    (hin : (domain, some ip) ∈ h.domainToIP.entries)
    (hreach : ReflTransGen (KeepsDomain domain) h later) :
    (later.getDomainFromFakeDNS ip).1 = domain := by
  have hlater : later.Inv ∧ (domain, some ip) ∈ later.domainToIP.entries := by
    refine reach_closed (P := fun x => Inv x ∧ (domain, some ip) ∈ x.domainToIP.entries)
      ?_ ⟨hinv, hin⟩ hreach
    rintro x ⟨hx, hxin⟩ y ⟨hstep, v, hcaches⟩
    obtain ⟨hy, hsame⟩ := hx.step hstep
    have hyin := hy.caches_iff.mp hcaches
    exact ⟨hy, hsame domain _ _ hxin hyin ▸ hyin⟩
  exact hlater.1.domain_of_entry hlater.2

/-- Fewer addresses are in use than the pool has, so that the search ends. -/
theorem Inv.ends (hinv : h.Inv) (domain : String) {millis : ℕ} (hmillis : millis < 2 ^ 64) :
    ∃ fuel, (h.getFakeIPForDomain fuel domain millis).isSome := by
  obtain ⟨k, hk, hstart⟩ := start_eq h.ipRange hmillis
  have hused : ∀ ip, (h.domainToIP.peekKeyFromValue ip).isSome = true →
      ip ∈ h.domainToIP.entries.map Prod.snd := by
    intro ip hip
    obtain ⟨key, hkey⟩ := (hinv.hok.peekKeyFromValue_isSome ip).mp hip
    exact List.mem_map.mpr ⟨(key, ip), hkey, rfl⟩
  have hroom : (h.domainToIP.entries.map Prod.snd).length < 2 ^ h.ipRange.rooms := by
    have hsize := hinv.hsize
    have hcap := hinv.hroom
    have hpow := Nat.two_pow_pos h.ipRange.rooms
    rw [List.length_map, hinv.hok.length_entries]
    zify
    rw [← Nat.cast_pos (α := ℤ)] at hpow
    push_cast at hpow
    omega
  refine ⟨2 ^ h.ipRange.rooms, ?_⟩
  unfold Holder.getFakeIPForDomain
  split
  · rfl
  · rfl
  · rw [hstart]
    dsimp only
    rw [isSome_map]
    exact hinv.hleads.probe_isSome hk _ hused hroom

theorem Inv.oneToOne (hinv : h.Inv) : h.OneToOne where
  hends domain millis hmillis := hinv.ends domain hmillis
  hreturns fuel domain millis result h' hmillis hcall := by
    obtain ⟨ip, hresult, hgiven⟩ := hinv.getFakeIPForDomain hmillis hcall
    refine ⟨ip, hresult, hgiven.hholds, ?_⟩
    rintro ⟨other, hother⟩ later hreach
    have hin := hgiven.hinv.caches_iff.mp hother
    have hsame := hgiven.hgiven other hin
    subst hsame
    exact hgiven.hinv.leads_back hin hreach
  hdistinct domain other ip hd ho :=
    hinv.hok.key_unique (hinv.caches_iff.mp hd) (hinv.caches_iff.mp ho)

/-! ## All pools -/

/-- The first address that a new holder gives out at the start of the clock. -/
theorem getFakeIPForDomain_first {log2 : Log2Test} {pool : IPNet} {lruSize : ℤ}
    (hinit : initializeHolder log2 (some pool) lruSize = .ok h) (domain : String) :
    ∃ h', h.getFakeIPForDomain 1 domain 0 =
      some (.ok (ipAddress (bytesOf (bigEndian pool.ip))), h') := by
  simp only [initializeHolder] at hinit
  split at hinit
  · cases hinit
  cases hinit
  exact ⟨_, by
    simp only [Holder.getFakeIPForDomain, Lru.get, Lru.new, Lru.peekKeyFromValue,
      IPNet.probe, start,
      Nat.zero_mod, ite_self, Nat.add_zero, isSome_none, Bool.false_eq_true, if_false,
      map_some]
    rfl⟩

/-- For every pool and size that is accepted, all runs are as they should be if and only if the
    first byte of the pool is not zero. -/
theorem fakedns_one_to_one_iff {log2 : Log2Test} {pool : IPNet} {lruSize : ℤ}
    (hinit : initializeHolder log2 (some pool) lruSize = .ok h) :
    (∀ later, ReflTransGen Step h later → later.OneToOne) ↔ pool.ip.head? ≠ some 0 := by
  constructor
  · intro hall
    by_contra hzero
    have hleads : ¬ pool.Leads := fun hleads => hleads hzero
    have hrange : h.ipRange = pool := by
      simp only [initializeHolder] at hinit
      split at hinit
      · cases hinit
      · cases hinit
        rfl
    obtain ⟨h', hcall⟩ := getFakeIPForDomain_first hinit ""
    obtain ⟨ip, hresult, hholds, -⟩ := (hall h .refl).hreturns 1 "" 0 _ h' (by decide) hcall
    rw [hrange] at hholds
    exact IPNet.not_holds_first hleads (Except.ok.inj hresult) hholds
  · intro hleads later hreach
    exact ((inv_initializeHolder hinit hleads).reach hreach).oneToOne

/-- The test on the numbers themselves. -/
def exactLog2 : Log2Test where
  atLeast n rooms := decide (2 ^ rooms ≤ n)
  hpow _ _ h := decide_eq_true h

/-- The pool 198.18.0.0/15. -/
def benchmarkPool : IPNet := ⟨[198, 18, 0, 0], 15, by decide, by decide, by decide⟩

theorem fakedns_one_to_one_iff_benchmark :
    ∃ h, initializeHolder exactLog2 (some benchmarkPool) 65535 = .ok h ∧
      ∀ later, ReflTransGen Step h later → later.OneToOne :=
  have hinit : initializeHolder exactLog2 (some benchmarkPool) 65535 =
      .ok ⟨.new 65535, benchmarkPool⟩ :=
    rfl
  ⟨_, hinit, (fakedns_one_to_one_iff hinit).mpr (by decide)⟩

/-- The pool 0.0.0.0/8. -/
def zeroPool : IPNet := ⟨[0, 0, 0, 0], 8, by decide, by decide, by decide⟩

/-- It is accepted, its first address is `nil`, and the second call for the domain panics. -/
theorem zero_pool_panics :
    ∃ h h' h'' message, initializeHolder exactLog2 (some zeroPool) 10 = .ok h ∧
      h.getFakeIPForDomain 1 "example.com" 5 = some (.ok none, h') ∧
      h'.getFakeIPForDomain 1 "example.com" 6 = some (.error message, h'') := by
  have hbytes : bytesOf (start zeroPool 5) = [5] := by decide
  refine ⟨⟨.new 10, zeroPool⟩, ⟨(Lru.new 10).put "example.com" none, zeroPool⟩, _, _, rfl, ?_, rfl⟩
  unfold getFakeIPForDomain
  simp only [IPNet.probe, hbytes]
  rfl

end Holder

end XrayCore.FakeDns
