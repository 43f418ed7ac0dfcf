import Otp.Lib.FileTree

/-!
# Sanitized paths (`filelib.erl`)

`safe_relative_path/2` goes through a path that is meant to be below a directory.
Links are read and their targets put in front of the rest of the path, and `..` drops
the last of the segments found so far, so that the result can be opened instead
of the path.

Paths are here as `filename:split/1` returns them, on Unix. The system stands for
`file:read_link/1` and for the opening of a path; both follow the links of the
path before, at most `limit` of them, and take no path that is longer than `pathMax`. A link whose
target is not a name in the encoding of file names is reported as an error by `read_link/1`, as is
a path that is too long, and so both are taken for ordinary names.
-/

namespace Otp.Stdlib.Filelib

open Otp.Lib FileTree List

variable {ν : Type}

/-- The target of a link, and whether it can be translated to a name. -/
structure Target (ν : Type) where
  segments : List (Segment ν)
  translates : Bool

/-- The argument `Cwd`: a directory of a file system, the bytes of its name as it is given, and the
limits of the system. -/
structure Directory (ν : Type) where
  fs : FileTree ν (Target ν)
  cwd : List ν
  cwd_dir : fs.node cwd = some .dir
  cwdSize : ℕ
  size : ν → ℕ
  pathMax : ℕ
  limit : ℕ

inductive Sanitized (ν : Type) where
  | unsafePath
  | safe (path : List (Segment ν))
deriving DecidableEq

/-- What is left of a path: its segments, with a mark after the target of a link. -/
inductive Item (ν : Type) where
  | seg (s : Segment ν)
  | clear

section Model

variable (d : Directory ν)

/-- The bytes of a segment. -/
def segmentSize : Segment ν → ℕ
  | .root => 1
  | .dot => 1
  | .dotdot => 2
  | .name n => d.size n

/-- The system takes `Cwd/path`; otherwise it fails with `enametoolong`. -/
def fits (path : List (Segment ν)) : Bool :=
  d.cwdSize + (path.map fun s => 1 + segmentSize d s).sum ≤ d.pathMax

/-- The location of `Cwd/path`, if the system resolves it. -/
def resolve (path : List (Segment ν)) : Option (List ν) :=
  if fits d path then walk d.fs Target.segments d.limit d.cwd path else none

/-- `file:read_link/1` of a name in the directory `Cwd/path`. -/
def readLink (path : List (Segment ν)) (n : ν) : Option (List (Segment ν)) :=
  if fits d (path ++ [.name n]) then
    match walk d.fs Target.segments d.limit d.cwd path with
    | none => none
    | some dir =>
      match d.fs.node (dir ++ [n]) with
      | some (.link t) => if t.translates then some t.segments else none
      | _ => none
  else none

variable [DecidableEq ν]

/-- `filename:join(Path, LinkPath)`, without the directory that every `Path` starts with: segments
`.` are left out before the last one. -/
def fullLinkPath (acc link : List (Segment ν)) : List (Segment ν) :=
  let path := if link.head? = some .root then link else acc ++ link
  path.dropLast.filter (· ≠ .dot) ++ path.getLast?.toList

/-- `srp_path/4`, with `srp_segment/4` and `srp_link/6`. -/
def srpPath : ℕ → List (Item ν) → List (List (Segment ν)) → List (Segment ν) →
    Option (Sanitized ν)
  | 0, _, _, _ => none
  | _ + 1, [], _, acc => some (.safe acc)
  | fuel + 1, .clear :: segs, _, acc => srpPath fuel segs [] acc
  | fuel + 1, .seg s :: segs, seen, acc =>
    match s with
    | .dot => srpPath fuel segs seen acc
    | .dotdot => if acc = [] then some .unsafePath else srpPath fuel segs seen acc.dropLast
    | .root => some .unsafePath
    | .name n =>
      match readLink d acc n with
      | none => srpPath fuel segs seen (acc ++ [.name n])
      | some link =>
        if fullLinkPath acc link ∈ seen then some .unsafePath
        else srpPath fuel (link.map .seg ++ .clear :: segs) (fullLinkPath acc link :: seen) acc

/-- `safe_relative_path/2`, if it returns within so many steps. -/
def safeRelativePath (fuel : ℕ) (path : List (Segment ν)) : Option (Sanitized ν) :=
  srpPath d fuel (path.map .seg) [] []

/-- The path consists of names, none of which is a link, and the system resolves the original path
to the location with these names, if it resolves it at all. -/
def StaysInside (path s : List (Segment ν)) : Prop :=
  ∃ names, s = names.map .name ∧ d.fs.LinkFree d.cwd names ∧
    ∀ loc, resolve d path = some loc → loc = d.cwd ++ names

end Model

/-! ## The links on the way -/

section Links

variable (d : Directory ν)

/-- If there is a link at this place below the directory, its target can be read. -/
def Readable (names : List ν) : Prop :=
  ∀ t, d.fs.node (d.cwd ++ names) = some (.link t) →
    t.translates = true ∧ fits d (names.map .name) = true

/-- Going along the path from the place `names` below the directory, with the targets of links in
their places, one comes to the link at the place `link`. -/
inductive Meets (link : List ν) : List ν → List (Segment ν) → Prop
  | here {names : List ν} {n : ν} {t : Target ν} {path : List (Segment ν)} :
      d.fs.node (d.cwd ++ (names ++ [n])) = some (.link t) → link = names ++ [n] →
      Meets link names (.name n :: path)
  | target {names : List ν} {n : ν} {t : Target ν} {path : List (Segment ν)} :
      d.fs.node (d.cwd ++ (names ++ [n])) = some (.link t) →
      Meets link names (t.segments ++ path) → Meets link names (.name n :: path)
  | name {names : List ν} {n : ν} {path : List (Segment ν)} :
      (∀ t, d.fs.node (d.cwd ++ (names ++ [n])) ≠ some (.link t)) →
      Meets link (names ++ [n]) path → Meets link names (.name n :: path)
  | dot {names : List ν} {path : List (Segment ν)} :
      Meets link names path → Meets link names (.dot :: path)
  | dotdot {names : List ν} {path : List (Segment ν)} : names ≠ [] →
      Meets link names.dropLast path → Meets link names (.dotdot :: path)

end Links

variable {d : Directory ν} {names : List ν} {n : ν}

/-- A link that is met has no link above it. -/
theorem Meets.linkFree {link : List ν} {path : List (Segment ν)} (h : Meets d link names path)
    (hfree : d.fs.LinkFree d.cwd names) :
    ∃ names' n', link = names' ++ [n'] ∧ d.fs.LinkFree d.cwd names' := by
  induction h with
  | here _ hlink => exact ⟨_, _, hlink, hfree⟩
  | target _ _ ih => exact ih hfree
  | name hno _ ih => exact ih (hfree.concat hno)
  | dot _ ih => exact ih hfree
  | dotdot _ _ ih => exact ih hfree.dropLast

/-! ## The segments found so far -/

/-- The path that the items stand for. -/
def rest : List (Item ν) → List (Segment ν)
  | [] => []
  | .seg s :: items => s :: rest items
  | .clear :: items => rest items

@[simp] theorem rest_seg_append (l : List (Segment ν)) (items : List (Item ν)) :
    rest (l.map .seg ++ items) = l ++ rest items := by
  induction l with
  | nil => rfl
  | cons s l ih => exact congrArg (s :: ·) ih

theorem link_of_readLink {path link : List (Segment ν)} (h : readLink d path n = some link) :
    fits d (path ++ [.name n]) = true ∧
      ∃ dir t, walk d.fs Target.segments d.limit d.cwd path = some dir ∧
        d.fs.node (dir ++ [n]) = some (.link t) ∧ t.segments = link := by
  unfold readLink at h
  split_ifs at h with hfits
  refine ⟨hfits, ?_⟩
  split at h
  · cases h
  · next dir hwalk =>
    split at h
    · next t hnode =>
      split_ifs at h
      exact ⟨dir, t, hwalk, hnode, Option.some.inj h⟩
    · cases h

/-- A link that is read is the one at the place. -/
theorem node_of_readLink {link : List (Segment ν)} (hfree : d.fs.LinkFree d.cwd names)
    (h : readLink d (names.map .name) n = some link) :
    ∃ t, d.fs.node (d.cwd ++ (names ++ [n])) = some (.link t) ∧ t.segments = link := by
  obtain ⟨-, dir, t, hwalk, hnode, hlink⟩ := link_of_readLink h
  rw [hfree.walk_eq hwalk, append_assoc] at hnode
  exact ⟨t, hnode, hlink⟩

/-- Where a link is, it is read if and only if it is readable. -/
theorem readLink_eq_none_iff {t : Target ν}
    (hnode : d.fs.node (d.cwd ++ (names ++ [n])) = some (.link t)) :
    readLink d (names.map .name) n = none ↔ ¬Readable d (names ++ [n]) := by
  have hdir : d.fs.node (d.cwd ++ names) = some .dir := by
    apply d.fs.parent_dir _ n
    rw [append_assoc, hnode]
    nofun
  have hread : Readable d (names ++ [n]) ↔
      t.translates = true ∧ fits d (names.map .name ++ [.name n]) = true := by
    simp [Readable, hnode]
  unfold readLink
  rw [hread, walk_names hdir]
  simp only [append_assoc, hnode]
  split_ifs <;> simp_all

variable [DecidableEq ν]

/-- Whatever is left of the path, the result is where the system gets from the segments found so
far. -/
theorem srpPath_spec {fuel : ℕ} {items : List (Item ν)} {seen : List (List (Segment ν))}
    {s : List (Segment ν)} (hfree : d.fs.LinkFree d.cwd names)
    (hread : ∀ link, Meets d link names (rest items) → Readable d link)
    (h : srpPath d fuel items seen (names.map .name) = some (.safe s)) :
    ∃ names', s = names'.map .name ∧ d.fs.LinkFree d.cwd names' ∧ ∀ links loc,
      walk d.fs Target.segments links (d.cwd ++ names) (rest items) = some loc →
        loc = d.cwd ++ names' := by
  induction fuel generalizing items seen names with
  | zero => cases h
  | succ fuel ih =>
    match items with
    | [] =>
      obtain rfl : names.map .name = s := by
        rw [srpPath] at h
        simpa using h
      refine ⟨names, rfl, hfree, ?_⟩
      intro links loc hwalk
      rw [rest, walk] at hwalk
      exact (Option.some.inj hwalk).symm
    | .clear :: items =>
      rw [rest] at hread ⊢
      exact ih hfree hread h
    | .seg .root :: items =>
      cases h
    | .seg .dot :: items =>
      obtain ⟨names', hs, hfree', hloc⟩ := ih hfree (fun link hmeets => hread link hmeets.dot) h
      refine ⟨names', hs, hfree', ?_⟩
      intro links loc hwalk
      rw [rest, walk] at hwalk
      split_ifs at hwalk
      exact hloc links loc hwalk
    | .seg .dotdot :: items =>
      rw [srpPath] at h
      split_ifs at h with hnil
      · cases h
      rw [← map_dropLast] at h
      have hne : names ≠ [] := by simpa using hnil
      obtain ⟨names', hs, hfree', hloc⟩ :=
        ih hfree.dropLast (fun link hmeets => hread link (hmeets.dotdot hne)) h
      refine ⟨names', hs, hfree', ?_⟩
      intro links loc hwalk
      rw [rest, walk] at hwalk
      split_ifs at hwalk
      rw [dropLast_append_of_ne_nil hne] at hwalk
      exact hloc links loc hwalk
    | .seg (.name n) :: items =>
      rw [srpPath] at h
      cases hlink : readLink d (names.map .name) n with
      | some link =>
        obtain ⟨t, hnode, rfl⟩ := node_of_readLink hfree hlink
        simp only [hlink] at h
        split_ifs at h
        · cases h
        have hread' : ∀ link, Meets d link names (t.segments ++ rest items) → Readable d link :=
          fun link hmeets => hread link (hmeets.target hnode)
        obtain ⟨names', hs, hfree', hloc⟩ := ih hfree (by rwa [rest_seg_append]) h
        refine ⟨names', hs, hfree', ?_⟩
        intro links loc hwalk
        rw [rest_seg_append] at hloc
        obtain ⟨t', k, hnode', hrest⟩ | ⟨hno, -⟩ := walk_name hwalk
        · rw [append_assoc, hnode] at hnode'
          cases hnode'
          exact hloc k loc hrest
        · rw [append_assoc] at hno
          exact absurd hnode (hno t)
      | none =>
        have hno : ∀ t, d.fs.node (d.cwd ++ (names ++ [n])) ≠ some (.link t) := fun t hnode =>
          (readLink_eq_none_iff hnode).mp hlink (hread _ (.here hnode rfl))
        simp only [hlink] at h
        rw [show names.map Segment.name ++ [.name n] = (names ++ [n]).map .name by simp] at h
        obtain ⟨names', hs, hfree', hloc⟩ :=
          ih (hfree.concat hno) (fun link hmeets => hread link (hmeets.name hno)) h
        refine ⟨names', hs, hfree', ?_⟩
        intro links loc hwalk
        obtain ⟨t, -, hnode, -⟩ | ⟨-, hrest⟩ := walk_name hwalk
        · rw [append_assoc] at hnode
          exact absurd hnode (hno t)
        · rw [append_assoc] at hrest
          exact hloc links loc hrest

omit [DecidableEq ν] in
theorem linkFree_nil : d.fs.LinkFree d.cwd [] := fun _ hp hne => absurd (prefix_nil.mp hp) hne

/-- A path whose links can be read is sanitized rightly. -/
theorem staysInside_of_readable {fuel : ℕ} {path s : List (Segment ν)}
    (h : safeRelativePath d fuel path = some (.safe s))
    (hread : ∀ link, Meets d link [] path → Readable d link) : StaysInside d path s := by
  have hrest : rest (path.map Item.seg) = path := by
    have happend := rest_seg_append path []
    rwa [append_nil, rest, append_nil] at happend
  obtain ⟨names, hs, hfree, hloc⟩ := srpPath_spec linkFree_nil (by rwa [hrest]) h
  refine ⟨names, hs, hfree, ?_⟩
  intro loc hresolve
  unfold resolve at hresolve
  split_ifs at hresolve
  rw [hrest, append_nil] at hloc
  exact hloc d.limit loc hresolve

/-- Names that are no links are found one after the other. -/
theorem srpPath_names {fuel : ℕ} {items : List (Item ν)} {seen : List (List (Segment ν))}
    {more : List ν} (hfree : d.fs.LinkFree d.cwd (names ++ more)) :
    srpPath d (fuel + more.length) (more.map (.seg ∘ .name) ++ items) seen (names.map .name) =
      srpPath d fuel items seen ((names ++ more).map .name) := by
  induction more generalizing names with
  | nil => rw [append_nil]; rfl
  | cons n more ih =>
    have hsplit : names ++ n :: more = names ++ [n] ++ more := by simp
    have hnames : d.fs.LinkFree d.cwd names := fun p hp => hfree p (hp.trans (prefix_append _ _))
    have hnone : readLink d (names.map .name) n = none := by
      rw [Option.eq_none_iff_forall_ne_some]
      intro link hlink
      obtain ⟨t, hnode, -⟩ := node_of_readLink hnames hlink
      exact hfree (names ++ [n]) ⟨more, hsplit.symm⟩ (by simp) t hnode
    rw [hsplit] at hfree ⊢
    rw [← ih hfree, length_cons, ← Nat.add_assoc, map_cons, cons_append, Function.comp_apply,
      srpPath, hnone, map_append]
    rfl

/-- A link that cannot be read is returned as a safe path. -/
theorem safeRelativePath_hidden {t : Target ν} (hfree : d.fs.LinkFree d.cwd names)
    (hnode : d.fs.node (d.cwd ++ (names ++ [n])) = some (.link t))
    (hhidden : ¬Readable d (names ++ [n])) :
    safeRelativePath d (2 + names.length) ((names ++ [n]).map .name) =
      some (.safe ((names ++ [n]).map .name)) := by
  have hrun := @srpPath_names ν d [] _ 2 [.seg (.name n)] [] names hfree
  rw [nil_append] at hrun
  rw [safeRelativePath, map_map, map_append, map_singleton, Function.comp_apply]
  refine hrun.trans ?_
  simp [srpPath, (readLink_eq_none_iff hnode).mpr hhidden]

/-- A sanitized path stays inside if every link met on the way can be read; and all sanitized paths
of a directory do so if and only if every link that has no link above it can be read. -/
theorem safeRelativePath_inside_iff (d : Directory ν) :
    (∀ fuel path s, safeRelativePath d fuel path = some (.safe s) →
      (∀ link, Meets d link [] path → Readable d link) → StaysInside d path s) ∧
    ((∀ fuel path s, safeRelativePath d fuel path = some (.safe s) → StaysInside d path s) ↔
      ∀ names n, d.fs.LinkFree d.cwd names → Readable d (names ++ [n])) := by
  refine ⟨fun fuel path s => staysInside_of_readable, ?_, ?_⟩
  · intro h names n hfree t hnode
    by_contra hhidden
    have hread : ¬Readable d (names ++ [n]) := fun hread => hhidden (hread t hnode)
    obtain ⟨names', hs, hfree', -⟩ := h _ _ _ (safeRelativePath_hidden hfree hnode hread)
    obtain rfl : names ++ [n] = names' := map_injective_iff.mpr (fun a b => Segment.name.inj) hs
    exact hfree' (names ++ [n]) prefix_rfl (by simp) t hnode
  · intro hread fuel path s h
    refine staysInside_of_readable h ?_
    intro link hmeets
    obtain ⟨names', n', rfl, hfree⟩ := hmeets.linkFree linkFree_nil
    exact hread names' n' hfree

/-- A link in the root directory to a place outside of the directory `www`; the target is not in
the encoding of file names. -/
def rawLink : FileTree String (Target String) where
  node p :=
    if p ∈ [[], ["www"], ["etc"]] then some .dir
    else if p = ["www", "raw"] then some (.link ⟨[.dotdot, .name "etc"], false⟩)
    else none
  root_dir := rfl
  parent_dir p n h := by
    rcases p with _ | ⟨a, _ | ⟨b, p⟩⟩
    · rfl
    · simp_all
    · simp_all

def www : Directory String where
  fs := rawLink
  cwd := ["www"]
  cwd_dir := rfl
  cwdSize := 4
  size := String.utf8ByteSize
  pathMax := 4095
  limit := 40

/-- The path of the link is returned as safe, and leads out of the directory. -/
theorem safeRelativePath_rawLink :
    safeRelativePath www 2 [.name "raw"] = some (.safe [.name "raw"]) ∧
      resolve www [.name "raw"] = some ["etc"] ∧
      ¬ StaysInside www [.name "raw"] [.name "raw"] := by
  have hsize : "raw".utf8ByteSize = 3 := by decide
  have hresolve : resolve www [.name "raw"] = some ["etc"] := by
    simp [resolve, fits, segmentSize, www, walk, isDir, rawLink, hsize]
  refine ⟨?_, hresolve, ?_⟩
  · simp [safeRelativePath, srpPath, readLink, www, walk, rawLink]
  · rintro ⟨names, -, -, hloc⟩
    have heq := congrArg head? (hloc _ hresolve)
    simp [www] at heq

/-! ## Termination -/

section Termination

variable (d)

/-- After the links in `seen`, the items are worked through in so many steps, whatever was found
before. -/
def ReturnsFrom (seen : List (List (Segment ν))) (items : List (Item ν)) : Prop :=
  ∀ acc, ∃ fuel, (srpPath d fuel items seen acc).isSome

/-- The items are worked through whatever was found and seen before. -/
def Returning (items : List (Item ν)) : Prop := ∀ seen, ReturnsFrom d seen items

variable {d} {items : List (Item ν)}

theorem Returning.clear (h : Returning d items) : Returning d (.clear :: items) := by
  intro _ acc
  obtain ⟨fuel, hfuel⟩ := h [] acc
  exact ⟨fuel + 1, hfuel⟩

/-- The segments in front are worked through if the first link among them is, with what comes
after it. -/
theorem returnsFrom_append {segs : List (Segment ν)} {seen : List (List (Segment ν))}
    (hitems : Returning d items)
    (hfirst : ∀ before n after, segs = before ++ .name n :: after → ∀ acc link,
      readLink d acc n = some link → fullLinkPath acc link ∉ seen →
        ReturnsFrom d (fullLinkPath acc link :: seen)
          (link.map .seg ++ .clear :: (after.map .seg ++ items))) :
    ReturnsFrom d seen (segs.map .seg ++ items) := by
  induction segs with
  | nil => exact hitems seen
  | cons s segs ih =>
    have hrest := ih fun before n after heq => hfirst (s :: before) n after (by rw [heq]; rfl)
    intro acc
    cases s with
    | dot =>
      obtain ⟨fuel, h⟩ := hrest acc
      exact ⟨fuel + 1, h⟩
    | dotdot =>
      obtain ⟨fuel, h⟩ := hrest acc.dropLast
      refine ⟨fuel + 1, ?_⟩
      rw [map_cons, cons_append, srpPath]
      split_ifs
      · rfl
      · exact h
    | root => exact ⟨1, rfl⟩
    | name n =>
      cases hlink : readLink d acc n with
      | none =>
        obtain ⟨fuel, h⟩ := hrest (acc ++ [.name n])
        refine ⟨fuel + 1, ?_⟩
        rwa [map_cons, cons_append, srpPath, hlink]
      | some link =>
        by_cases hseen : fullLinkPath acc link ∈ seen
        · refine ⟨1, ?_⟩
          simp only [map_cons, cons_append, srpPath, hlink, if_pos hseen]
          rfl
        · obtain ⟨fuel, h⟩ := hfirst [] n segs rfl acc link hlink hseen acc
          refine ⟨fuel + 1, ?_⟩
          simpa only [map_cons, cons_append, srpPath, hlink, if_neg hseen] using h

/-- The segments in front are worked through if the targets of all their links are. -/
theorem Returning.append {segs : List (Segment ν)} (hitems : Returning d items)
    (hlinks : ∀ n, .name n ∈ segs → ∀ acc link, readLink d acc n = some link →
      ∀ items, Returning d items → Returning d (link.map .seg ++ items)) :
    Returning d (segs.map .seg ++ items) := by
  induction hlen : segs.length using Nat.strongRecOn generalizing segs with
  | _ len ih =>
    intro seen
    refine returnsFrom_append hitems ?_
    rintro before n after rfl acc link hlink -
    have hafter : Returning d (after.map .seg ++ items) :=
      ih after.length (by simp at hlen; omega) (fun m hm => hlinks m (by simp [hm])) rfl
    exact hlinks n (by simp) acc link hlink _ hafter.clear _

end Termination

/-- A link to its own directory, and a link that goes through it to itself. -/
def selfLinks : FileTree String (Target String) where
  node p :=
    if p = [] then some .dir
    else if p = ["here"] then some (.link ⟨[.dot], true⟩)
    else if p = ["again"] then some (.link ⟨[.name "here", .name "again"], true⟩)
    else none
  root_dir := rfl
  parent_dir p n h := by
    rcases p with _ | ⟨a, _ | ⟨b, p⟩⟩
    · rfl
    · simp_all
    · simp_all

def here : Directory String where
  fs := selfLinks
  cwd := []
  cwd_dir := rfl
  cwdSize := 1
  size := String.utf8ByteSize
  pathMax := 4095
  limit := 40

end Otp.Stdlib.Filelib
