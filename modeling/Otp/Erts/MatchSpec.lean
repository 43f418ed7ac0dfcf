import Otp.Erts.Terms.Order

/-!
# The heads of match specifications

What a head matches (`db_match_compile` and `db_prog_match` of `erl_db_util.c`).
A variable `'$N'` stands for one term in the whole head, `'_'` for any, and a map
for the maps that have its elements; a variable or `'_'` as the key of a map is
an error. Everything else matches the same term only, numbers included.
-/

namespace Otp.Erts.MatchSpec

inductive Shape where
  | list
  | tuple
deriving DecidableEq

/-- A term. The elements of a tuple follow one another like those of a list, and the pairs of a map
likewise, in the order of the keys; a term that is not looked into is compared by its rank. -/
inductive Term where
  | num (n : Number)
  | atom (name : List Char)
  | other (rank id : ℕ)
  | cell (shape : Shape) (first rest : Term)
  | last (shape : Shape)
  | assoc (key value rest : Term)
  | mapEnd
deriving DecidableEq

/-- `a == b`. The keys of maps are not converted. -/
def Term.equal : Term → Term → Bool
  | .num m, .num n => m.value = n.value
  | .other m _, .other n _ => m = n
  | .cell s a as, .cell t b bs => s = t && a.equal b && as.equal bs
  | .assoc k a as, .assoc l b bs => k = l && a.equal b && as.equal bs
  | a, b => a = b

/-- The digits after the first, read into a C `int`. -/
def readDigits : ℤ → List Char → ℤ
  | n, [] => n
  | n, c :: cs =>
    if '0' ≤ c ∧ c ≤ '9' then readDigits (Int.bmod (n * 10 + (c.toNat - '0'.toNat)) (2 ^ 32)) cs
    else -1

/-- `db_is_variable` of an atom: the number of `'$N'`, and `-1` for another atom. -/
def varNumber : List Char → ℤ
  | '$' :: c :: cs =>
    if c = '0' then (if cs = [] then 0 else -1)
    else if '1' ≤ c ∧ c ≤ '9' then readDigits (c.toNat - '0'.toNat) cs
    else -1
  | _ => -1

/-- The head is accepted. -/
def compiles : Term → Bool
  | .cell _ a as => compiles a && compiles as
  | .assoc (.atom s) a as => s ≠ ['_'] && varNumber s < 0 && compiles a && compiles as
  | .assoc _ a as => compiles a && compiles as
  | _ => true

abbrev Bindings := List (ℤ × Term)

def matchAtom (s : List Char) (t : Term) (b : Bindings) : Option Bindings :=
  if 0 ≤ varNumber s then
    match b.lookup (varNumber s) with
    | none => some ((varNumber s, t) :: b)
    | some u => if u = t then some b else none
  else if s = ['_'] ∨ t = .atom s then some b
  else none

/-- A head and a term, after some variables have been bound. -/
def dbMatch : Term → Term → Bindings → Option Bindings
  | .atom s, t, b => matchAtom s t b
  | .cell s p ps, .cell t a as, b =>
    if s = t then (dbMatch p a b).bind (dbMatch ps as) else none
  | .assoc k p ps, .assoc l a as, b =>
    if k = l then (dbMatch p a b).bind (dbMatch ps as) else dbMatch (.assoc k p ps) as b
  | .mapEnd, .assoc _ _ _, b => some b
  | p, a, b => if p = a then some b else none

/-- Two terms that are equal and not the same do not match. -/
theorem eq_of_equal_of_dbMatch {p a : Term} (h : p.equal a = true) {b b' : Bindings}
    (hm : dbMatch p a b = some b') : p = a := by
  induction p generalizing a b b' with
  | cell s p ps ihp ihps =>
    cases a with
    | cell t a as =>
      simp only [Term.equal, Bool.and_eq_true, decide_eq_true_eq] at h
      obtain ⟨⟨rfl, hp⟩, hps⟩ := h
      rw [dbMatch, if_pos rfl] at hm
      obtain ⟨b₁, hm₁, hm₂⟩ := Option.bind_eq_some_iff.mp hm
      rw [ihp hp hm₁, ihps hps hm₂]
    | _ => simp [Term.equal] at h
  | assoc k p ps _ ihp ihps =>
    cases a with
    | assoc l a as =>
      simp only [Term.equal, Bool.and_eq_true, decide_eq_true_eq] at h
      obtain ⟨⟨rfl, hp⟩, hps⟩ := h
      rw [dbMatch, if_pos rfl] at hm
      obtain ⟨b₁, hm₁, hm₂⟩ := Option.bind_eq_some_iff.mp hm
      rw [ihp hp hm₁, ihps hps hm₂]
    | _ => simp [Term.equal] at h
  | _ => cases a <;> simp_all [Term.equal, dbMatch]

/-! ## A term as a head for itself -/

/-- The variables of a head, from the left. -/
def vars : Term → List (List Char)
  | .atom s => if 0 ≤ varNumber s then [s] else []
  | .cell _ a as => vars a ++ vars as
  | .assoc _ a as => vars a ++ vars as
  | _ => []

theorem varNumber_nonneg {p : Term} {s : List Char} (h : s ∈ vars p) : 0 ≤ varNumber s := by
  induction p with
  | atom t =>
    rw [vars] at h
    split_ifs at h with ht
    · rwa [List.mem_singleton.mp h]
    · cases h
  | cell _ _ _ ih ih' => exact (List.mem_append.mp h).elim ih ih'
  | assoc _ _ _ _ ih ih' => exact (List.mem_append.mp h).elim ih ih'
  | _ => cases h

theorem dbMatch_self (p : Term) (b : Bindings) :
    dbMatch p p b = (vars p).foldlM (fun b s => matchAtom s (.atom s) b) b := by
  induction p generalizing b with
  | atom s =>
    rw [dbMatch, vars]
    split_ifs with hs
    · simp
    · simp [matchAtom, hs]
  | cell s p ps ih ih' =>
    rw [dbMatch, if_pos rfl, vars, List.foldlM_append, ← ih]
    exact congrArg _ (funext ih')
  | assoc k p ps _ ih ih' =>
    rw [dbMatch, if_pos rfl, vars, List.foldlM_append, ← ih]
    exact congrArg _ (funext ih')
  | _ => simp [dbMatch, vars]

/-- Variables match themselves if none is bound to something else or has two names. -/
theorem foldlM_matchAtom_isSome {l : List (List Char)} (hl : ∀ s ∈ l, 0 ≤ varNumber s)
    (b : Bindings) : (l.foldlM (fun b s => matchAtom s (.atom s) b) b).isSome ↔
      (∀ s ∈ l, ∀ u ∈ b.lookup (varNumber s), u = .atom s) ∧
        l.Pairwise fun s s' => varNumber s = varNumber s' → s = s' := by
  induction l generalizing b with
  | nil => simp
  | cons s l ih =>
    obtain ⟨hs, hl⟩ := List.forall_mem_cons.mp hl
    rw [List.foldlM_cons, matchAtom, if_pos hs, List.forall_mem_cons, List.pairwise_cons]
    cases hb : b.lookup (varNumber s) with
    | some u =>
      by_cases hu : u = .atom s
      · simp only [hu, if_true, Option.bind_eq_bind, Option.bind_some, ih hl]
        rw [hu] at hb
        constructor
        · rintro ⟨hbound, hpair⟩
          refine ⟨⟨by simp, hbound⟩, ?_, hpair⟩
          intro s' hs' hn
          exact Term.atom.inj (hbound s' hs' (.atom s) (hn ▸ hb))
        · rintro ⟨⟨-, hbound⟩, -, hpair⟩
          exact ⟨hbound, hpair⟩
      · simp [hu]
    | none =>
      -- the names that follow agree with the new binding, or do not see it
      have hnew (s' : List Char) : (∀ u ∈ ((varNumber s, .atom s) :: b).lookup (varNumber s'),
          u = .atom s') ↔ (∀ u ∈ b.lookup (varNumber s'), u = .atom s') ∧
            (varNumber s = varNumber s' → s = s') := by
        by_cases hn : varNumber s = varNumber s'
        · simp [← hn, hb]
        · have hne : (varNumber s' == varNumber s) = false := beq_eq_false_iff_ne.mpr (Ne.symm hn)
          simp [List.lookup_cons, hne, hn]
      simp only [Option.bind_eq_bind, Option.bind_some, ih hl, hnew, forall_and]
      simp
      tauto

end Otp.Erts.MatchSpec
