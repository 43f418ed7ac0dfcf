import Mathlib

/-!
# File trees and the resolution of paths

A tree of directories, files and symbolic links, by location. A path is resolved
segment by segment; a link puts the segments of its target in the place of its
name. Only so many links are followed, as an operating system does it.
-/

namespace Otp.Lib

open List

/-- A segment of a path. A path that starts with `root` is absolute. -/
inductive Segment (ν : Type) where
  | root
  | dot
  | dotdot
  | name (n : ν)
deriving DecidableEq

inductive Node (τ : Type) where
  | dir
  | file
  | link (target : τ)

/-- What there is at each location. Only directories have something in them. -/
structure FileTree (ν τ : Type) where
  node : List ν → Option (Node τ)
  root_dir : node [] = some .dir
  parent_dir : ∀ p n, node (p ++ [n]) ≠ none → node p = some .dir

namespace FileTree

variable {ν τ : Type} (fs : FileTree ν τ) (segments : τ → List (Segment ν))

def isDir (p : List ν) : Bool :=
  match fs.node p with
  | some .dir => true
  | _ => false

/-- The location of a path, from the location `cur` on, with at most so many links. -/
def walk : ℕ → List ν → List (Segment ν) → Option (List ν)
  | _, cur, [] => some cur
  | links, cur, s :: rest =>
    if fs.isDir cur then
      match s with
      | .root => walk links [] rest
      | .dot => walk links cur rest
      | .dotdot => walk links cur.dropLast rest
      | .name n =>
        match fs.node (cur ++ [n]) with
        | some (.link t) =>
          match links with
          | 0 => none
          | links + 1 => walk links cur (segments t ++ rest)
        | some _ => walk links (cur ++ [n]) rest
        | none => none
    else none
termination_by links _ rest => (links, rest.length)

/-- No location on the way from `cur` along the names is a link. -/
def LinkFree (cur names : List ν) : Prop :=
  ∀ p, p <+: names → p ≠ [] → ∀ t, fs.node (cur ++ p) ≠ some (.link t)

variable {fs segments} {cur names : List ν} {n : ν} {links : ℕ} {loc : List ν}

theorem isDir_iff : fs.isDir cur = true ↔ fs.node cur = some .dir := by
  unfold isDir
  split
  · simp_all
  · simp_all

/-- A name is a link that is followed, or something else that is gone to. -/
theorem walk_name {rest : List (Segment ν)}
    (h : walk fs segments links cur (.name n :: rest) = some loc) :
    (∃ t k, fs.node (cur ++ [n]) = some (.link t) ∧
        walk fs segments k cur (segments t ++ rest) = some loc) ∨
      ((∀ t, fs.node (cur ++ [n]) ≠ some (.link t)) ∧
        walk fs segments links (cur ++ [n]) rest = some loc) := by
  rw [walk] at h
  split_ifs at h
  cases hnode : fs.node (cur ++ [n]) with
  | none => simp [hnode] at h
  | some node =>
    cases node with
    | link t =>
      cases links with
      | zero => simp [hnode] at h
      | succ k =>
        simp only [hnode] at h
        exact .inl ⟨t, k, rfl, h⟩
    | dir | file =>
      simp only [hnode] at h
      exact .inr ⟨nofun, h⟩

/-! ## Names only -/

theorem LinkFree.cons (h : fs.LinkFree cur (n :: names)) : fs.LinkFree (cur ++ [n]) names := by
  intro p hp _ t
  rw [append_assoc]
  exact h (n :: p) (cons_prefix_cons.mpr ⟨rfl, hp⟩) (cons_ne_nil n p) t

section

variable (h : fs.LinkFree cur names)

include h

theorem LinkFree.concat (hn : ∀ t, fs.node (cur ++ (names ++ [n])) ≠ some (.link t)) :
    fs.LinkFree cur (names ++ [n]) := by
  intro p hp hne
  obtain rfl | hp := prefix_concat_iff.mp hp
  · exact hn
  · exact h p hp hne

theorem LinkFree.dropLast : fs.LinkFree cur names.dropLast :=
  fun p hp => h p (hp.trans <| dropLast_prefix names)

/-- Names without a link lead to the place they name. -/
theorem LinkFree.walk_eq (hwalk : walk fs segments links cur (names.map .name) = some loc) :
    loc = cur ++ names := by
  induction names generalizing cur with
  | nil =>
    rw [map_nil, walk] at hwalk
    rw [append_nil, Option.some.inj hwalk]
  | cons n names ih =>
    obtain ⟨t, _, hlink, -⟩ | ⟨-, hrest⟩ := walk_name hwalk
    · exact absurd hlink (h [n] (by simp) (cons_ne_nil n []) t)
    · rw [ih h.cons hrest, append_assoc]
      rfl

end

/-- What is above a directory is a directory. -/
theorem node_of_append (h : fs.node (cur ++ names) = some .dir) : fs.node cur = some .dir := by
  induction names using reverseRecOn with
  | nil => rwa [append_nil] at h
  | append_singleton names n ih =>
    rw [← append_assoc] at h
    exact ih (fs.parent_dir _ n (by rw [h]; nofun))

/-- Every directory is reached by its names. -/
theorem walk_names (h : fs.node (cur ++ names) = some .dir) :
    walk fs segments links cur (names.map .name) = some (cur ++ names) := by
  induction names generalizing cur with
  | nil => rw [map_nil, walk, append_nil]
  | cons n names ih =>
    have hsplit : cur ++ n :: names = cur ++ [n] ++ names := by
      rw [append_assoc]
      rfl
    have hn : fs.node (cur ++ [n]) = some .dir := node_of_append (hsplit ▸ h)
    rw [map_cons, walk, if_pos (isDir_iff.mpr (node_of_append hn))]
    simp only [hn]
    rw [hsplit] at h ⊢
    exact ih h

end FileTree

end Otp.Lib
