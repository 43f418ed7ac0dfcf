import Mathlib

/-!
# The longest suffix in a set of words

An automaton that looks for words in a text is, after each letter, at the longest suffix of the
text read so far that is in its set of words.  The set is closed under taking prefixes.  Each
word has a failure, its longest proper suffix in the set, and a step that is not possible from
a word is made from its failure instead.
-/

namespace Otp.Lib.LongestSuffix

open List

variable {α : Type*} {W : List α → Prop} {u v w f : List α} {c : α}

/-- The longest suffix of `w` in `W`. -/
structure IsLongest (W : List α → Prop) (w v : List α) : Prop where
  mem : W v
  suffix : v <:+ w
  longest : ∀ u, W u → u <:+ w → u <:+ v

/-- The longest proper suffix of `w` in `W`. -/
structure IsFail (W : List α → Prop) (w v : List α) : Prop where
  mem : W v
  suffix : v <:+ w
  proper : v ≠ w
  longest : ∀ u, W u → u <:+ w → u ≠ w → u <:+ v

theorem IsFail.length_lt (h : IsFail W w v) : v.length < w.length := by
  rcases Nat.lt_or_ge v.length w.length with hlt | hge
  · exact hlt
  · exact absurd (h.suffix.eq_of_length_le hge) h.proper

theorem isLongest_self (h : W w) : IsLongest W w w :=
  ⟨h, suffix_refl w, fun _ _ hu => hu⟩

theorem isLongest_nil (h : W []) : IsLongest W [] [] := isLongest_self h

/-- A letter more: the longest suffix comes from the longest suffix before. -/
theorem IsLongest.concat (hclosed : ∀ w c, W (w ++ [c]) → W w) (hv : IsLongest W w v)
    (hu : IsLongest W (v ++ [c]) u) : IsLongest W (w ++ [c]) u where
  mem := hu.mem
  suffix := hu.suffix.trans (suffix_append_inj_of_length_eq rfl |>.2 ⟨hv.suffix, rfl⟩)
  longest := by
    intro t ht hsuf
    refine hu.longest t ht ?_
    rcases suffix_concat_iff.1 hsuf with rfl | ⟨t', rfl, ht'⟩
    · exact nil_suffix
    · exact suffix_concat_iff.2 (.inr ⟨t', rfl, hv.longest t' (hclosed t' c ht) ht'⟩)

/-- No step from the empty word. -/
theorem isLongest_of_no_step (hnil : W []) (hno : ¬ W [c]) : IsLongest W [c] [] where
  mem := hnil
  suffix := nil_suffix
  longest := by
    intro t ht hsuf
    rcases (@suffix_concat_iff _ t [] c).1 hsuf with rfl | ⟨t', rfl, ht'⟩
    · exact nil_suffix
    · rw [suffix_nil.1 ht'] at ht
      exact absurd ht hno

theorem isFail_singleton (hnil : W []) : IsFail W [c] [] where
  mem := hnil
  suffix := nil_suffix
  proper := nofun
  longest := by
    intro t _ hsuf hne
    rcases (@suffix_concat_iff _ t [] c).1 hsuf with rfl | ⟨t', rfl, ht'⟩
    · exact nil_suffix
    · rw [suffix_nil.1 ht'] at hne
      exact absurd rfl hne

/-- The failure of a longer word is a step from the failure of the shorter one. -/
theorem IsFail.concat (hclosed : ∀ w c, W (w ++ [c]) → W w) (hf : IsFail W w f)
    (hu : IsLongest W (f ++ [c]) u) : IsFail W (w ++ [c]) u where
  mem := hu.mem
  suffix := hu.suffix.trans (suffix_append_inj_of_length_eq rfl |>.2 ⟨hf.suffix, rfl⟩)
  proper := by
    intro heq
    have hle := hu.suffix.length_le
    have hlt := hf.length_lt
    rw [heq, length_append, length_append] at hle
    omega
  longest := by
    intro t ht hsuf hne
    refine hu.longest t ht ?_
    rcases suffix_concat_iff.1 hsuf with rfl | ⟨t', rfl, ht'⟩
    · exact nil_suffix
    · have hne' : t' ≠ w := fun heq => hne (by rw [heq])
      exact suffix_concat_iff.2 (.inr ⟨t', rfl, hf.longest t' (hclosed t' c ht) ht' hne'⟩)

/-- A step that is not possible is made from the failure. -/
theorem IsLongest.of_fail (hclosed : ∀ w c, W (w ++ [c]) → W w) (hno : ¬ W (v ++ [c]))
    (hf : IsFail W v f) (hu : IsLongest W (f ++ [c]) u) : IsLongest W (v ++ [c]) u := by
  have hfail := hf.concat hclosed hu
  refine ⟨hfail.mem, hfail.suffix, fun t ht hsuf => hfail.longest t ht hsuf ?_⟩
  rintro rfl
  exact hno ht

end Otp.Lib.LongestSuffix
