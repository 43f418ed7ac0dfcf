import Otp.Compiler.BeamTypes.Canonical

/-!
# Bounds of two types of one slot

`glb/2` returns types below its arguments and `lub/2` types above them, whatever
relation `le` of inner types the inner calls return bounds for. It is read in two
ways: as the order of canonical types, and as inclusion of terms.
-/

namespace Otp.Compiler.BeamTypes

open Otp.Lib Ordset

variable {P Q : Typ → Prop} {le : Typ → Typ → Prop} {R J : Typ → Typ → Typ} {t u t' u' : Typ}
  {c : Typ × Typ} {i : ℕ} {a : OtherType} {b : ListType} {u1 u2 : ℕ}

theorem notNone_eq_some : t.notNone = some u ↔ t = u ∧ t ≠ .none := by
  cases t <;> simp [Typ.notNone]

/-! ## Lists -/

theorem meetCells_eq_some :
    meetCells R t u t' u' = some c ↔
      (R t t').notNone = some c.1 ∧ (R u u').notNone = some c.2 := by
  obtain ⟨x, y⟩ := c
  unfold meetCells
  cases R t t' <;> cases R u u' <;> simp [Typ.notNone]

/-- Meets of both parts of a list. -/
theorem meetCells_below (hR : Bounds P Q le R) (h : (ListType.cons t u).Good P)
    (h' : (ListType.cons t' u').Good P) (hc : meetCells R t u t' u' = some c) :
    ((Q c.1 ∧ c.1 ≠ .none) ∧ Q c.2 ∧ c.2 ≠ .none) ∧ (le c.1 t ∧ le c.2 u) ∧
      le c.1 t' ∧ le c.2 u' := by
  obtain ⟨x, y⟩ := c
  obtain ⟨h1, h2⟩ := meetCells_eq_some.mp hc
  obtain ⟨rfl, hne⟩ := notNone_eq_some.mp h1
  obtain ⟨rfl, hne'⟩ := notNone_eq_some.mp h2
  obtain ⟨hQ, hl, hr⟩ := hR h.1 h'.1
  obtain ⟨hQ', hl', hr'⟩ := hR h.2 h'.2
  exact ⟨⟨⟨hQ, hne⟩, hQ', hne'⟩, ⟨hl, hl'⟩, hr, hr'⟩

theorem glbList_below (hR : Bounds P Q le R) {a m : ListType} (hab : a ≠ b) (ha : a.Good P)
    (hb : b.Good P) (hm : glbList R a b = some m) :
    m.Good (fun t => Q t ∧ t ≠ .none) ∧ ListType.Le le m a ∧ ListType.Le le m b := by
  unfold glbList at hm
  rw [if_neg hab] at hm
  match a, b with
  | .nil, .nil => exact absurd rfl hab
  | .nil, .list _ _ | .list _ _, .nil =>
    cases hm
    exact ⟨trivial, trivial, trivial⟩
  | .cons _ _, .cons _ _ | .cons _ _, .list _ _ =>
    obtain ⟨c, hc, rfl⟩ := Option.map_eq_some_iff.mp hm
    exact meetCells_below hR ha hb hc
  | .list _ _, .cons _ _ =>
    obtain ⟨c, hc, rfl⟩ := Option.map_eq_some_iff.mp hm
    obtain ⟨hQ, hleb, hlea⟩ := meetCells_below hR hb ha hc
    exact ⟨hQ, hlea, hleb⟩
  | .list _ _, .list _ _ =>
    simp only at hm
    split at hm
    · cases hm
      exact ⟨trivial, trivial, trivial⟩
    · rename_i c hc
      cases hm
      exact meetCells_below hR ha hb hc

theorem lubList_above (hJ : Bounds P P (flip le) J) (hrefl : ∀ {x}, P x → le x x) {a : ListType}
    (hab : a ≠ b) (ha : a.Good P) (hb : b.Good P) : (lubList J a b).Good P ∧
      ListType.Le le a (lubList J a b) ∧ ListType.Le le b (lubList J a b) := by
  unfold lubList
  rw [if_neg hab]
  match a, b with
  | .nil, .nil => exact absurd rfl hab
  | .nil, .cons _ _ | .nil, .list _ _ => exact ⟨hb, trivial, hrefl hb.1, hrefl hb.2⟩
  | .cons _ _, .nil | .list _ _, .nil => exact ⟨ha, ⟨hrefl ha.1, hrefl ha.2⟩, trivial⟩
  | .cons _ _, .cons _ _ | .cons _ _, .list _ _ | .list _ _, .list _ _ =>
    obtain ⟨hP, hl, hr⟩ := hJ ha.1 hb.1
    obtain ⟨hP', hl', hr'⟩ := hJ ha.2 hb.2
    exact ⟨⟨hP, hP'⟩, ⟨hl, hl'⟩, hr, hr'⟩
  | .list _ _, .cons _ _ =>
    obtain ⟨hP, hl, hr⟩ := hJ hb.1 ha.1
    obtain ⟨hP', hl', hr'⟩ := hJ hb.2 ha.2
    exact ⟨⟨hP, hP'⟩, ⟨hr, hr'⟩, hl, hl'⟩

/-! ## Other types -/

theorem meetKnown_bound {α : Type} [DecidableEq α] :
    BoundOn (fun _ : Option α => True) FlatLe meetKnown where
  bound {x y m} _ _ hm := by
    refine ⟨trivial, ?_⟩
    match x, y with
    | some a, some b =>
      rw [meetKnown] at hm
      split_ifs at hm with hab
      cases hm
      exact ⟨.inr rfl, .inr (congrArg some hab)⟩
    | some a, none =>
      cases hm
      exact ⟨.inr rfl, .inl rfl⟩
    | none, some b =>
      cases hm
      exact ⟨.inl rfl, .inr rfl⟩
    | none, none =>
      cases hm
      exact ⟨.inl rfl, .inl rfl⟩
  greatest {x y z} _ _ _ hzx hzy := by
    match x, y with
    | some a, some b =>
      obtain rfl := flatLe_some.mp hzx
      obtain rfl := Option.some.inj (flatLe_some.mp hzy)
      exact ⟨_, if_pos rfl, .inr rfl⟩
    | some a, none => exact ⟨_, rfl, hzx⟩
    | none, some b => exact ⟨_, rfl, hzy⟩
    | none, none => exact ⟨_, rfl, .inl rfl⟩

theorem OtherType.Le.refl (hrefl : ∀ {x}, P x → le x x) (ha : a.Good P) : a.Le le a := by
  cases a with
  | fn arity target t => exact .fn (.inr rfl) (.inr rfl) (hrefl ha.2)
  | map k v => exact .map (hrefl ha.1) (hrefl ha.2)
  | bitstring u p => exact .bitstring dvd_rfl id
  | bsContext u => exact .bsContext dvd_rfl
  | bsMatchable u => exact .bsMatchable dvd_rfl
  | identifier => exact .identifier rfl
  | pid => exact .pid
  | port => exact .port
  | reference => exact .reference
  | other => exact .other

@[simp] theorem glbOther_other_left (b : OtherType) : glbOther R .other b = some b := by
  cases b <;> simp [glbOther, OtherType.isIdentifier]

@[simp] theorem glbOther_other_right (a : OtherType) : glbOther R a .other = some a := by
  cases a <;> simp [glbOther, OtherType.isIdentifier]

theorem glbOther_identifier_left (b : OtherType) : glbOther R .identifier b =
    if b.isIdentifier then some b else if b = .other then some .identifier else none := by
  cases b <;> simp [glbOther, OtherType.isIdentifier]

theorem glbOther_identifier_right (a : OtherType) : glbOther R a .identifier =
    if a.isIdentifier then some a else if a = .other then some .identifier else none := by
  cases a <;> simp [glbOther, OtherType.isIdentifier]

theorem commonUnit_dvd {n : ℕ} : commonUnit u1 u2 ∣ n ↔ u1 ∣ n ∧ u2 ∣ n :=
  Nat.lcm_dvd_iff

theorem commonUnit_pos (h1 : 1 ≤ u1) (h2 : 1 ≤ u2) : 1 ≤ commonUnit u1 u2 :=
  Nat.lcm_pos h1 h2

theorem dvd_commonUnit (u1 u2 : ℕ) : u1 ∣ commonUnit u1 u2 ∧ u2 ∣ commonUnit u1 u2 :=
  commonUnit_dvd.mp dvd_rfl

/-- The meet of two functions. -/
theorem glbOther_fn_below (hR : Bounds P Q le R) {arity arity' n : Option ℕ}
    {target target' g : Option (Atom × ℕ)} (ha : OtherType.Good P (.fn arity target t))
    (hb : OtherType.Good P (.fn arity' target' t')) (hg : meetKnown target target' = some g)
    (hn : meetKnown arity arity' = some n) :
    OtherType.Good Q (.fn n g (R t t')) ∧ OtherType.Le le (.fn n g (R t t')) (.fn arity target t) ∧
      OtherType.Le le (.fn n g (R t t')) (.fn arity' target' t') := by
  obtain ⟨-, hna, hnb⟩ := meetKnown_bound.bound trivial trivial hn
  obtain ⟨-, hga, hgb⟩ := meetKnown_bound.bound trivial trivial hg
  obtain ⟨hQ, hta, htb⟩ := hR ha.2 hb.2
  refine ⟨⟨fun x hx => ?_, hQ⟩, .fn hna hga hta, .fn hnb hgb htb⟩
  -- the known target comes with a known arity from one of the two
  subst hx
  have hfrom : target = some x ∨ target' = some x := by
    cases target with
    | some y => exact .inl (hga.resolve_left (by simp)).symm
    | none =>
      cases target' with
      | some y => exact .inr (hgb.resolve_left (by simp)).symm
      | none => cases hg
  rcases hfrom with hx | hx
  · obtain ⟨k, rfl, hk⟩ := ha.1 x hx
    exact ⟨k, flatLe_some.mp hna, hk⟩
  · obtain ⟨k, rfl, hk⟩ := hb.1 x hx
    exact ⟨k, flatLe_some.mp hnb, hk⟩

theorem glbOther_below (hR : Bounds P Q le R) (hPQ : ∀ {x}, P x → Q x) (hrefl : ∀ {x}, P x → le x x)
    {b m : OtherType} (hab : a ≠ b) (ha : a.Good P) (hb : b.Good P) (hm : glbOther R a b = some m) :
    m.Good Q ∧ m.Le le a ∧ m.Le le b := by
  have hgood : ∀ {o : OtherType}, o.Good P → o.Good Q := fun ho => ho.imp fun _ _ => hPQ
  by_cases hao : a = .other
  · subst hao
    obtain rfl := Option.some.inj ((glbOther_other_left b).symm.trans hm)
    exact ⟨hgood hb, .other, .refl hrefl hb⟩
  by_cases hbo : b = .other
  · subst hbo
    obtain rfl := Option.some.inj ((glbOther_other_right a).symm.trans hm)
    exact ⟨hgood ha, .refl hrefl ha, .other⟩
  by_cases hai : a = .identifier
  · subst hai
    rw [glbOther_identifier_left] at hm
    split_ifs at hm with hi
    cases hm
    exact ⟨hgood hb, .identifier hi, .refl hrefl hb⟩
  by_cases hbi : b = .identifier
  · subst hbi
    rw [glbOther_identifier_right] at hm
    split_ifs at hm with hi
    cases hm
    exact ⟨hgood ha, .refl hrefl ha, .identifier hi⟩
  unfold glbOther at hm
  rw [if_neg hab] at hm
  have hdvd := dvd_commonUnit
  match a, b, hm with
  | .bitstring u1 p1, .bitstring u2 p2, hm =>
    cases hm
    exact ⟨commonUnit_pos ha hb, .bitstring (hdvd u1 u2).1 fun hp => by simp [hp],
      .bitstring (hdvd u1 u2).2 fun hp => by simp [hp]⟩
  | .bitstring u1 p, .bsMatchable u2, hm =>
    cases hm
    exact ⟨commonUnit_pos ha hb, .bitstring (hdvd u1 u2).1 id, .bitstringMatchable (hdvd u1 u2).2⟩
  | .bsMatchable u2, .bitstring u1 p, hm =>
    cases hm
    exact ⟨commonUnit_pos hb ha, .bitstringMatchable (hdvd u1 u2).2, .bitstring (hdvd u1 u2).1 id⟩
  | .bsContext u1, .bsContext u2, hm =>
    cases hm
    exact ⟨commonUnit_pos ha hb, .bsContext (hdvd u1 u2).1, .bsContext (hdvd u1 u2).2⟩
  | .bsContext u1, .bsMatchable u2, hm =>
    cases hm
    exact ⟨commonUnit_pos ha hb, .bsContext (hdvd u1 u2).1, .contextMatchable (hdvd u1 u2).2⟩
  | .bsMatchable u2, .bsContext u1, hm =>
    cases hm
    exact ⟨commonUnit_pos hb ha, .contextMatchable (hdvd u1 u2).2, .bsContext (hdvd u1 u2).1⟩
  | .bsMatchable u1, .bsMatchable u2, hm =>
    cases hm
    exact ⟨commonUnit_pos ha hb, .bsMatchable (hdvd u1 u2).1, .bsMatchable (hdvd u1 u2).2⟩
  | .fn _ _ _, .fn _ _ _, hm =>
    simp only at hm
    split at hm
    · rename_i g n hg hn
      cases hm
      exact glbOther_fn_below hR ha hb hg hn
    · cases hm
  | .map _ _, .map _ _, hm =>
    cases hm
    obtain ⟨hQ, hl, hr⟩ := hR ha.1 hb.1
    obtain ⟨hQ', hl', hr'⟩ := hR ha.2 hb.2
    exact ⟨⟨hQ, hQ'⟩, .map hl hl', .map hr hr'⟩
  | .pid, b, hm | .port, b, hm | .reference, b, hm =>
    cases b <;> contradiction

theorem lubOther_above (hJ : Bounds P P (flip le) J) {b : OtherType} (hab : a ≠ b) (ha : a.Good P)
    (hb : b.Good P) :
    (lubOther J a b).Good P ∧ a.Le le (lubOther J a b) ∧ b.Le le (lubOther J a b) := by
  have hpos : ∀ {u v : ℕ}, 1 ≤ u → 1 ≤ Nat.gcd u v := fun hu => Nat.gcd_pos_of_pos_left _ hu
  have hdvd : ∀ u v : ℕ, Nat.gcd u v ∣ u ∧ Nat.gcd u v ∣ v := fun u v =>
    ⟨Nat.gcd_dvd_left u v, Nat.gcd_dvd_right u v⟩
  unfold lubOther
  rw [if_neg hab]
  split
  case h_1 u1 p1 u2 p2 =>
    exact ⟨hpos ha, .bitstring (hdvd u1 u2).1 fun hp => ((Bool.and_eq_true _ _).mp hp).1,
      .bitstring (hdvd u1 u2).2 fun hp => ((Bool.and_eq_true _ _).mp hp).2⟩
  case h_2 u1 u2 => exact ⟨hpos ha, .bsContext (hdvd u1 u2).1, .bsContext (hdvd u1 u2).2⟩
  case h_3 u1 p u2 =>
    exact ⟨hpos ha, .bitstringMatchable (hdvd u1 u2).1, .contextMatchable (hdvd u1 u2).2⟩
  case h_4 u1 p u2 =>
    exact ⟨hpos ha, .bitstringMatchable (hdvd u1 u2).1, .bsMatchable (hdvd u1 u2).2⟩
  case h_5 u1 u2 p =>
    exact ⟨hpos ha, .contextMatchable (hdvd u1 u2).1, .bitstringMatchable (hdvd u1 u2).2⟩
  case h_6 u1 u2 =>
    exact ⟨hpos ha, .contextMatchable (hdvd u1 u2).1, .bsMatchable (hdvd u1 u2).2⟩
  case h_7 u1 u2 =>
    exact ⟨hpos ha, .bsMatchable (hdvd u1 u2).1, .bsMatchable (hdvd u1 u2).2⟩
  case h_8 u1 u2 p =>
    exact ⟨hpos ha, .bsMatchable (hdvd u1 u2).1, .bitstringMatchable (hdvd u1 u2).2⟩
  case h_9 u1 u2 =>
    exact ⟨hpos ha, .bsMatchable (hdvd u1 u2).1, .contextMatchable (hdvd u1 u2).2⟩
  case h_10 arityA targetA typeA arityB targetB typeB =>
    obtain ⟨hP, hl, hr⟩ := hJ ha.2 hb.2
    split_ifs with hn hg
    · exact ⟨⟨ha.1, hP⟩, .fn (.inr rfl) (.inr rfl) hl, .fn (.inr hn.symm) (.inr hg.symm) hr⟩
    · exact ⟨⟨fun g hg => (nomatch hg), hP⟩, .fn (.inr rfl) (.inl rfl) hl,
        .fn (.inr hn.symm) (.inl rfl) hr⟩
    · exact ⟨⟨fun g hg => (nomatch hg), hP⟩, .fn (.inl rfl) (.inl rfl) hl,
        .fn (.inl rfl) (.inl rfl) hr⟩
  case h_11 k v k' v' =>
    obtain ⟨hP, hl, hr⟩ := hJ ha.1 hb.1
    obtain ⟨hP', hl', hr'⟩ := hJ ha.2 hb.2
    exact ⟨⟨hP, hP'⟩, .map hl hl', .map hr hr'⟩
  case h_12 =>
    split_ifs with hi
    · have hi' := (Bool.and_eq_true _ _).mp hi
      exact ⟨trivial, .identifier hi'.1, .identifier hi'.2⟩
    · exact ⟨trivial, .other, .other⟩

/-! ## Tuples -/

theorem glbTuples_below (hR : Bounds P Q le R) (hrefl : ∀ {x}, P x → le x x) {a b m : TupleType}
    (hab : a ≠ b) (ha : a.Good P) (hb : b.Good P) (hm : glbTuples R a b = some m) :
    m.Le le a ∧ m.Le le b := by
  unfold glbTuples at hm
  rw [if_neg hab] at hm
  split_ifs at hm with hsize
  push Not at hsize
  obtain ⟨es, hes, rfl⟩ := Option.map_eq_some_iff.mp hm
  obtain ⟨hla, hlb⟩ := mergeWith_below (P := fun _ => P) hes ha hb hrefl fun {k x y w}
    hx hy hw => by
    obtain ⟨rfl, -⟩ := notNone_eq_some.mp hw
    exact (hR hx hy).2
  exact ⟨⟨le_max_left _ _, fun hx => ⟨by simp [hx], max_eq_left (hsize.1 hx)⟩, hla⟩,
    le_max_right _ _, fun hx => ⟨by simp [hx], max_eq_right (hsize.2 hx)⟩, hlb⟩

theorem setTupleElement_eq_some :
    setTupleElement i t = some u ↔ t = u ∧ t ≠ .none ∧ t ≠ .any ∧ i ≤ tupleElementLimit := by
  unfold setTupleElement
  split
  · simp
  · simp
  · simp_all [and_comm]

theorem lubTuples_above (hJ : Bounds P P (flip le) J) {a b : TupleType} (hab : a ≠ b)
    (ha : a.Good P) (hb : b.Good P) :
    (lubTuples J a b).Good P ∧ a.Le le (lubTuples J a b) ∧ b.Le le (lubTuples J a b) := by
  have hset : ∀ {i x y u}, P x → P y → setTupleElement i (J x y) = some u →
      P u ∧ le x u ∧ le y u := by
    intro i x y u hx hy hw
    obtain ⟨rfl, -⟩ := setTupleElement_eq_some.mp hw
    exact hJ hx hy
  obtain ⟨hP, hla, hlb⟩ := interWith_above (P := fun _ => P)
    (g := fun i x y => setTupleElement i (J x y)) ha hb hset
  -- elements behind the size are dropped
  have hmem : ∀ {n e}, e ∈ lubTupleElements J n a.elements b.elements →
      e ∈ lubElements J a.elements b.elements := fun he => List.mem_of_mem_filter he
  have hgood : ∀ n, MapOn (fun _ => P) (lubTupleElements J n a.elements b.elements) := fun n =>
    ⟨List.Pairwise.sublist (List.filter_sublist.map _) hP.1, fun e he => hP.2 e (hmem he)⟩
  unfold lubTuples
  rw [if_neg hab]
  split_ifs with hsize
  · refine ⟨hgood _, ⟨le_rfl, fun hx => ⟨?_, rfl⟩, fun k x hx => hla k x (hmem hx)⟩,
      hsize.le, fun hx => ⟨?_, hsize.symm⟩, fun k x hx => hlb k x (hmem hx)⟩
    · exact ((Bool.and_eq_true _ _).mp hx).1
    · exact ((Bool.and_eq_true _ _).mp hx).2
  · exact ⟨hgood _, ⟨min_le_left _ _, nofun, fun k x hx => hla k x (hmem hx)⟩,
      min_le_right _ _, nofun, fun k x hx => hlb k x (hmem hx)⟩

/-! ## Native records -/

theorem exported_lattice : PartialLattice (fun _ : Exported => True) Exported.Le meetExported
    fun a b => some (joinExported a b) := by
  refine ⟨⟨?_, ?_, ?_⟩, ⟨?_, ?_⟩, ⟨?_, ?_⟩⟩
  · exact fun _ => .inr rfl
  · rintro x y z - - - (rfl | rfl) (rfl | rfl)
    · exact .inl rfl
    · exact .inl rfl
    · exact .inl rfl
    · exact .inr rfl
  · rintro x y - - (rfl | rfl) hyx
    · rcases hyx with rfl | rfl <;> rfl
    · rfl
  · intro x y m _ _ hm
    cases x <;> cases y <;> cases hm <;> simp [Exported.Le]
  · intro x y z _ _ _ hzx hzy
    cases x <;> cases y <;> cases z <;> simp [Exported.Le, meetExported] at hzx hzy ⊢
  · intro x y m _ _ hm
    cases hm
    cases x <;> cases y <;> simp [Exported.Le, joinExported, flip]
  · intro x y z _ _ _ hzx hzy
    cases x <;> cases y <;> cases z <;> simp [Exported.Le, joinExported, flip] at hzx hzy ⊢

theorem glbRecords_eq_some {a b r : RecordType} : glbRecords R a b = some r ↔
    (a = b ∧ r = a) ∨ (a ≠ b ∧ ∃ name exported type, meetKnown a.name b.name = some name ∧
      meetExported a.exported b.exported = some exported ∧
      glbRecordElements R a.type b.type = some type ∧
      r = ⟨name, exported, type, a.localCreation || b.localCreation⟩) := by
  unfold glbRecords
  split_ifs with heq
  · simp [heq, eq_comm]
  · simp only [Option.bind_eq_bind, Option.bind_eq_some_iff, heq, false_and, false_or, ne_eq,
      not_false_eq_true, true_and, Option.some.injEq]
    constructor
    · rintro ⟨name, hname, exported, hexported, type, htype, rfl⟩
      exact ⟨name, exported, type, hname, hexported, htype, rfl⟩
    · rintro ⟨name, exported, type, hname, hexported, htype, rfl⟩
      exact ⟨name, hname, exported, hexported, type, htype, rfl⟩

theorem glbField_below (hR : Bounds P Q le R) {x y z : Option Typ} (hx : ∀ t, x = some t → P t)
    (hy : ∀ t, y = some t → P t) (h : glbField R x y = some z) : FieldLe le z x ∧
      FieldLe le z y := by
  match x, y with
  | none, none =>
    cases h
    exact ⟨trivial, trivial⟩
  | some t, some u =>
    obtain ⟨s, hs, rfl⟩ := Option.map_eq_some_iff.mp h
    obtain ⟨rfl, -⟩ := notNone_eq_some.mp hs
    exact (hR (hx t rfl) (hy u rfl)).2

theorem glbRecords_below (hR : Bounds P Q le R) (hrefl : ∀ {x}, P x → le x x) {a b m : RecordType}
    (hab : a ≠ b) (ha : a.Good P) (hb : b.Good P) (hm : glbRecords R a b = some m) :
    m.Le le a ∧ m.Le le b := by
  obtain ⟨name, exported, fs, hname, hexported, hfs, rfl⟩ :=
    ((glbRecords_eq_some.mp hm).resolve_left fun h => hab h.1).2
  obtain ⟨-, hna, hnb⟩ := meetKnown_bound.bound trivial trivial hname
  obtain ⟨-, hea, heb⟩ := exported_lattice.meet.bound trivial trivial hexported
  obtain ⟨hfa, hfb⟩ := mergeWith_below (P := fun _ x => ∀ t, x = some t → P t) hfs ha hb
    (fun {_ x} hx => by
      cases x with
      | none => trivial
      | some t => exact hrefl (hx t rfl)) (glbField_below hR)
  exact ⟨⟨⟨hna, hea⟩, hfa, fun hx => by simp [hx]⟩, ⟨hnb, heb⟩, hfb, fun hx => by simp [hx]⟩

end Otp.Compiler.BeamTypes
