/-
  XrayCore.Wire.Windows

  Fields read one after another from a stream that is seen through a window.

  A parser is `Framed` if what it takes does not depend on what follows, and if it finds
  every beginning of that too short.  `walk` goes through the whole fields of some bytes,
  and `windowed` does so with only so many bytes in sight, and sees all that is left where
  no field fits.  `windowed_eq_walk`: the window makes no difference.
-/

import XrayCore.Wire.Parser

namespace XrayCore.Wire

open List

variable {ε α β σ : Type}

/-! ## Framed parsers -/

/-- What the parser takes it takes whatever follows, and less of it is too short. -/
def Framed (p : Parser ε α) : Prop :=
  ∀ bytes a rest, p bytes = .ok a rest →
    ∃ front, bytes = front ++ rest ∧ Reads p front a ∧ ∀ x, x <+: front → x ≠ front → p x = .short

/-- The parser takes something. -/
def Consumes (p : Parser ε α) : Prop :=
  ∀ bytes a rest, p bytes = .ok a rest → rest.length < bytes.length

variable {f : α → Parser ε β} {p : Parser ε α}

theorem bind_eq_ok {bytes rest : Bytes} {b : β} (h : (p >>= f) bytes = .ok b rest) :
    ∃ a mid, p bytes = .ok a mid ∧ f a mid = .ok b rest := by
  change Parser.bind p f bytes = _ at h
  rw [Parser.bind] at h
  split at h
  · next a mid hp => exact ⟨a, mid, hp, h⟩
  · cases h
  · cases h

theorem framed_pure (a : α) : Framed (pure a : Parser ε α) := by
  intro bytes a' rest h
  cases h
  refine ⟨[], rfl, reads_pure a, fun x hx hne => absurd (prefix_nil.mp hx) hne⟩

theorem framed_fail (e : ε) : Framed (Parser.fail e : Parser ε α) := nofun

theorem framed_take (n : ℕ) : Framed (Parser.take n : Parser ε _) := by
  intro bytes a rest h
  unfold Parser.take at h
  split at h
  case isFalse => nomatch h
  next hn =>
  cases h
  have hlen : (bytes.take n).length = n := by rw [length_take]; omega
  refine ⟨bytes.take n, (take_append_drop n bytes).symm, reads_take hlen, fun x hx hne => ?_⟩
  have hlt : x.length < n := by
    have hle := hx.length_le
    have hne' : x.length ≠ (bytes.take n).length := fun h => hne (hx.eq_of_length h)
    omega
  exact if_neg (by omega)

theorem consumes_take {n : ℕ} (hn : 0 < n) : Consumes (Parser.take n : Parser ε _) := by
  intro bytes a rest h
  unfold Parser.take at h
  split at h
  case isFalse => nomatch h
  next hle =>
  cases h
  rw [length_drop]
  omega

/-- One after the other. -/
theorem Framed.bind (hp : Framed p) (hf : ∀ a, Framed (f a)) : Framed (p >>= f) := by
  intro bytes b rest h
  obtain ⟨a, mid, hpa, hfb⟩ := bind_eq_ok h
  obtain ⟨x, rfl, hx, hxshort⟩ := hp _ _ _ hpa
  obtain ⟨y, rfl, hy, hyshort⟩ := hf a _ _ _ hfb
  refine ⟨x ++ y, (append_assoc x y rest).symm, hx.bind hy, fun z hz hne => ?_⟩
  by_cases hxz : x <+: z
  · obtain ⟨y', rfl⟩ := hxz
    rw [hx.bind_apply]
    exact hyshort y' ((prefix_append_right_inj x).mp hz) fun heq => hne (heq ▸ rfl)
  · have hzx : z <+: x :=
      (List.prefix_or_prefix_of_prefix hz (prefix_append x y)).resolve_right hxz
    have hzshort : p z = .short := hxshort z hzx fun heq => hxz (heq ▸ prefix_refl z)
    show Parser.bind p f z = _
    rw [Parser.bind, hzshort]

theorem Consumes.bind (hp : Consumes p) (hf : ∀ a, Framed (f a)) : Consumes (p >>= f) := by
  intro bytes b rest h
  obtain ⟨a, mid, hpa, hfb⟩ := bind_eq_ok h
  obtain ⟨front, rfl, -, -⟩ := hf a _ _ _ hfb
  have hlt := hp _ _ _ hpa
  rw [length_append] at hlt
  omega

/-- What a framed parser does not take of some bytes, and does not find too short, it does not
    take of more. -/
theorem Framed.not_ok (hp : Framed p) {w : Bytes} {e : ε} (h : p w = .bad e) (y : Bytes)
    (a : α) (rest : Bytes) : p (w ++ y) ≠ .ok a rest := by
  intro hok
  obtain ⟨front, heq, hreads, hshort⟩ := hp _ _ _ hok
  by_cases hfront : front <+: w
  · obtain ⟨more, rfl⟩ := hfront
    rw [hreads more] at h
    nomatch h
  · have hw : w <+: front := (List.prefix_or_prefix_of_prefix (prefix_append w y)
      (heq ▸ prefix_append front rest)).resolve_right hfront
    rw [hshort w hw fun heq => hfront (heq ▸ prefix_refl w)] at h
    nomatch h

/-! ## Field by field -/

section Walk

variable (p : Parser ε α) (handle : σ → α → σ × Option ε) (truncated : ε)

/-- Goes through the whole fields at the front of some bytes.  A field that is cut off is an
    error, unless more bytes follow.  The result is the state, the bytes that are left and the
    error. -/
def walk (more : Bool) (s : σ) (bytes : Bytes) : σ × Bytes × Option ε :=
  if bytes = [] then (s, [], none)
  else
    match p bytes with
    | .short => (s, bytes, if more then none else some truncated)
    | .bad e => (s, bytes, some e)
    | .ok a rest =>
      let r := handle s a
      if r.2.isSome then (r.1, rest, r.2)
      else if rest.length < bytes.length then walk more r.1 rest
      else (r.1, rest, none)
termination_by bytes.length

/-- Goes through the fields in sight. -/
def inSight (size : ℕ) (s : σ) (bytes : Bytes) : σ × Bytes × Option ε :=
  walk p handle truncated (decide ((bytes.take size).length < bytes.length)) s (bytes.take size)

/-- Goes through all the bytes with at most `size` of them in sight.  Where no whole field is in
    sight, all that is left is. -/
def windowed (size : ℕ) (s : σ) (bytes : Bytes) : σ × Option ε :=
  if bytes = [] then (s, none)
  else
    let r := inSight p handle truncated size s bytes
    if r.2.2.isSome then (r.1, r.2.2)
    else if (bytes.take size).length - r.2.1.length = 0 then
      let whole := walk p handle truncated false r.1 bytes
      (whole.1, whole.2.2)
    else windowed size r.1 (bytes.drop ((bytes.take size).length - r.2.1.length))
termination_by bytes.length
decreasing_by
  have hpos : 0 < bytes.length := List.length_pos_of_ne_nil ‹_›
  rw [List.length_drop]
  exact Nat.sub_lt hpos (Nat.pos_of_ne_zero ‹_›)

variable {p handle truncated} {more : Bool} {s : σ} {bytes w : Bytes}

theorem walk_short (hne : bytes ≠ []) (h : p bytes = .short) :
    walk p handle truncated more s bytes =
      (s, bytes, if more then none else some truncated) := by
  rw [walk, if_neg hne, h]

theorem walk_bad {e : ε} (hne : bytes ≠ []) (h : p bytes = .bad e) :
    walk p handle truncated more s bytes = (s, bytes, some e) := by
  rw [walk, if_neg hne, h]

theorem walk_ok (hp : Consumes p) {a : α} {rest : Bytes} (h : p bytes = .ok a rest) :
    walk p handle truncated more s bytes =
      if (handle s a).2.isSome then ((handle s a).1, rest, (handle s a).2)
      else walk p handle truncated more (handle s a).1 rest := by
  have hlt := hp _ _ _ h
  have hne : bytes ≠ [] := by
    rintro rfl
    exact absurd hlt (Nat.not_lt_zero _)
  rw [walk, if_neg hne, h]
  simp only [if_pos hlt]

/-- After the fields in sight, going on with what is left is going through all; where that
    fails in sight, it fails on all. -/
theorem walk_window (hp : Framed p) (hc : Consumes p) (handle : σ → α → σ × Option ε)
    (truncated : ε) (y : Bytes) (hmore : more = !y.isEmpty) :
    let r := walk p handle truncated more s w
    let whole := walk p handle truncated false s (w ++ y)
    (r.2.2.isSome → whole.1 = r.1 ∧ whole.2.2.isSome) ∧
      (r.2.2 = none → whole = walk p handle truncated false r.1 (r.2.1 ++ y) ∧ r.2.1 <:+ w) := by
  induction hn : w.length using Nat.strongRecOn generalizing w s with
  | _ n ih =>
    intro r whole
    by_cases hne : w = []
    · subst hne
      have hr : r = (s, [], none) := by
        show walk p handle truncated more s [] = _
        rw [walk, if_pos rfl]
      rw [hr]
      exact ⟨nofun, fun _ => ⟨rfl, suffix_refl _⟩⟩
    have hney : w ++ y ≠ [] := by simp [hne]
    cases hpw : p w with
    | short =>
      have hr : r = _ := walk_short hne hpw
      rw [hr]
      cases more with
      | true => exact ⟨nofun, fun _ => ⟨rfl, suffix_refl _⟩⟩
      | false =>
        -- nothing is behind the window, so it is the whole
        have hy : y = [] := by simpa using hmore
        subst hy
        refine ⟨fun _ => ?_, nofun⟩
        have hwhole : whole = _ := walk_short hney (by rw [append_nil]; exact hpw)
        rw [hwhole]
        exact ⟨rfl, rfl⟩
    | bad e =>
      have hr : r = _ := walk_bad hne hpw
      rw [hr]
      refine ⟨fun _ => ?_, nofun⟩
      -- more bytes may change the error, but do not make a field of it
      cases hpwy : p (w ++ y) with
      | ok a rest => exact absurd hpwy (hp.not_ok hpw y a rest)
      | short =>
        have hwhole : whole = _ := walk_short hney hpwy
        rw [hwhole]
        exact ⟨rfl, rfl⟩
      | bad e' =>
        have hwhole : whole = _ := walk_bad hney hpwy
        rw [hwhole]
        exact ⟨rfl, rfl⟩
    | ok a rest =>
      have hlt := hc _ _ _ hpw
      obtain ⟨front, hfront, hreads, -⟩ := hp _ _ _ hpw
      have hpwy : p (w ++ y) = .ok a (rest ++ y) := by
        rw [hfront, append_assoc]
        exact hreads _
      have hr : r = _ := walk_ok hc hpw
      have hwhole : whole = _ := walk_ok hc hpwy
      rw [hr, hwhole]
      cases herr : (handle s a).2 with
      | some e => exact ⟨fun _ => ⟨rfl, rfl⟩, nofun⟩
      | none =>
        obtain ⟨hfail, hgo⟩ := ih rest.length (hn ▸ hlt) rfl (s := (handle s a).1)
        simp only [Option.isSome_none, Bool.false_eq_true, if_false]
        refine ⟨hfail, fun h => ⟨(hgo h).1, (hgo h).2.trans ?_⟩⟩
        rw [hfront]
        exact suffix_append front rest

/-- The fields in sight are those at the front of all. -/
theorem inSight_spec (hp : Framed p) (hc : Consumes p) (handle : σ → α → σ × Option ε)
    (truncated : ε) (size : ℕ) (s : σ) (bytes : Bytes) :
    let r := inSight p handle truncated size s bytes
    let whole := walk p handle truncated false s bytes
    (r.2.2.isSome → whole.1 = r.1 ∧ whole.2.2.isSome) ∧
      (r.2.2 = none → whole = walk p handle truncated false r.1
        (bytes.drop ((bytes.take size).length - r.2.1.length))) := by
  have hmore : decide ((bytes.take size).length < bytes.length) =
      !(bytes.drop size).isEmpty := by
    rw [Bool.eq_iff_iff, decide_eq_true_eq, Bool.not_eq_true', isEmpty_eq_false_iff, ne_eq,
      drop_eq_nil_iff, length_take]
    omega
  have hwindow := walk_window (w := bytes.take size) (s := s) hp hc handle truncated _ hmore
  rw [take_append_drop] at hwindow
  refine ⟨hwindow.1, fun hnone => ?_⟩
  obtain ⟨hwhole, front, hleft⟩ := hwindow.2 hnone
  rw [hwhole]
  -- what is left begins where the fields in sight end
  unfold inSight
  generalize walk p handle truncated (decide ((bytes.take size).length < bytes.length)) s
    (bytes.take size) = r at hleft
  have hlen := congrArg length hleft
  rw [length_append] at hlen
  rw [show (bytes.take size).length - r.2.1.length = front.length by omega]
  have hused : bytes.drop front.length = r.2.1 ++ bytes.drop size := calc
    bytes.drop front.length
        = (bytes.take size ++ bytes.drop size).drop front.length := by rw [take_append_drop]
    _ = r.2.1 ++ bytes.drop size := by rw [← hleft, append_assoc, drop_left]
  rw [hused]

/-- The window makes no difference. -/
theorem windowed_eq_walk (hp : Framed p) (hc : Consumes p) (size : ℕ) :
    (windowed p handle truncated size s bytes).1 =
        (walk p handle truncated false s bytes).1 ∧
      (windowed p handle truncated size s bytes).2.isSome =
        (walk p handle truncated false s bytes).2.2.isSome := by
  induction hn : bytes.length using Nat.strongRecOn generalizing bytes s with
  | _ n ih =>
    by_cases hne : bytes = []
    · subst hne
      rw [windowed, walk, if_pos rfl, if_pos rfl]
      exact ⟨rfl, rfl⟩
    rw [windowed, if_neg hne]
    obtain ⟨hfail, hgo⟩ := inSight_spec hp hc handle truncated size s bytes
    generalize inSight p handle truncated size s bytes = r at hfail hgo
    dsimp only
    split
    · next herr =>
      obtain ⟨hstate, hsome⟩ := hfail herr
      exact ⟨hstate.symm, herr.trans hsome.symm⟩
    · next herr =>
      rw [hgo (by simpa using herr)]
      split
      · next hzero =>
        rw [hzero]
        exact ⟨rfl, rfl⟩
      · next hpos =>
        apply ih _ _ rfl
        have hbytes := length_pos_of_ne_nil hne
        rw [length_drop]
        omega

end Walk

end XrayCore.Wire
