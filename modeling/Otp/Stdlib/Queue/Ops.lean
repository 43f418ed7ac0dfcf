import Mathlib

/-!
# Double-ended queues (`queue.erl`)

A queue is the pair `{RearList, FrontList}`: the first element is the head of the
front list, the last one the head of the rear list.  Every function below keeps
the clauses of the source in their order.  The clauses that reject a term that is
no queue have no counterpart, since the arguments are typed; a function argument
is total, so a call that raises inside it has no result here either.

`get` and its variants are written over what their last clause does: on a queue
with all its elements on the far side the source falls back to `lists:last/1`, and
whether that clause is reached is what the representation is about.
-/

namespace Otp.Stdlib

/-- `{RearList, FrontList}`. -/
structure Queue (α : Type) where
  rear : List α
  front : List α
deriving DecidableEq, Repr

/-- What a call can raise. -/
inductive QueueError where
  | empty
  | badarg
  | badmatch
  | functionClause
deriving DecidableEq, Repr

namespace Queue

variable {α : Type}

/-! ## Moving elements between the sides -/

/-- `r2f/1`: half of the rear list goes to the front, if there are at least three. -/
def r2f : List α → Queue α
  | [] => ⟨[], []⟩
  | [x] => ⟨[], [x]⟩
  | [y, x] => ⟨[y], [x]⟩
  | list =>
    let (rr, ff) := list.splitAt (list.length / 2)
    ⟨rr, ff.reverse⟩

/-- `f2r/1`: half of the front list goes to the rear, if there are enough. -/
def f2r : List α → Queue α
  | [] => ⟨[], []⟩
  | [x] => ⟨[x], []⟩
  | [x, y] => ⟨[y], [x]⟩
  | list =>
    let (ff, rr) := list.splitAt (list.length / 2)
    ⟨rr.reverse, ff⟩

/-! ## Creation and conversion -/

/-- `new/0`. -/
def new : Queue α := ⟨[], []⟩

/-- `len/1`. -/
def len (q : Queue α) : ℕ := q.rear.length + q.front.length

/-- `to_list/1`. -/
def toList (q : Queue α) : List α := q.front ++ q.rear.reverse

/-- `from_list/1`. -/
def fromList (l : List α) : Queue α := f2r l

/-! ## Both ends -/

/-- `in/2`. -/
def inQ (x : α) : Queue α → Queue α
  | ⟨[y], []⟩ => ⟨[x], [y]⟩
  | ⟨r, f⟩ => ⟨x :: r, f⟩

/-- `in_r/2`. -/
def inR (x : α) : Queue α → Queue α
  | ⟨[], [y]⟩ => ⟨[y], [x]⟩
  | ⟨r, f⟩ => ⟨r, x :: f⟩

/-- `out/1`; the value is `none` for the reply `{empty, Q}`. -/
def out : Queue α → Except QueueError (Option α × Queue α)
  | ⟨[], []⟩ => .ok (none, ⟨[], []⟩)
  | ⟨[v], []⟩ => .ok (some v, ⟨[], []⟩)
  | ⟨y :: r, []⟩ =>
    match r.reverse with
    | v :: f => .ok (some v, ⟨[y], f⟩)
    | [] => .error .badmatch
  | ⟨r, [v]⟩ => .ok (some v, r2f r)
  | ⟨r, v :: f⟩ => .ok (some v, ⟨r, f⟩)

/-- `out_r/1`. -/
def outR : Queue α → Except QueueError (Option α × Queue α)
  | ⟨[], []⟩ => .ok (none, ⟨[], []⟩)
  | ⟨[], [v]⟩ => .ok (some v, ⟨[], []⟩)
  | ⟨[], y :: f⟩ =>
    match f.reverse with
    | v :: r => .ok (some v, ⟨r, [y]⟩)
    | [] => .error .badmatch
  | ⟨[v], f⟩ => .ok (some v, f2r f)
  | ⟨v :: r, f⟩ => .ok (some v, ⟨r, f⟩)

/-- `drop/1`. -/
def drop : Queue α → Except QueueError (Queue α)
  | ⟨[], []⟩ => .error .empty
  | ⟨[_], []⟩ => .ok ⟨[], []⟩
  | ⟨y :: r, []⟩ =>
    match r.reverse with
    | _ :: f => .ok ⟨[y], f⟩
    | [] => .error .badmatch
  | ⟨r, [_]⟩ => .ok (r2f r)
  | ⟨r, _ :: f⟩ => .ok ⟨r, f⟩

/-- `drop_r/1`. -/
def dropR : Queue α → Except QueueError (Queue α)
  | ⟨[], []⟩ => .error .empty
  | ⟨[], [_]⟩ => .ok ⟨[], []⟩
  | ⟨[], y :: f⟩ =>
    match f.reverse with
    | _ :: r => .ok ⟨r, [y]⟩
    | [] => .error .badmatch
  | ⟨[_], f⟩ => .ok (f2r f)
  | ⟨_ :: r, f⟩ => .ok ⟨r, f⟩

/-! ## Looking at the ends

`last` is the function that the clause for a malformed queue calls. -/

/-- `get/1` and `head/1`. -/
def getBy (last : List α → Except QueueError α) : Queue α → Except QueueError α
  | ⟨[], []⟩ => .error .empty
  | ⟨_, h :: _⟩ => .ok h
  | ⟨[h], []⟩ => .ok h
  | ⟨_ :: r, []⟩ => last r

/-- `get_r/1`, `daeh/1` and `last/1`. -/
def getRBy (last : List α → Except QueueError α) : Queue α → Except QueueError α
  | ⟨[], []⟩ => .error .empty
  | ⟨h :: _, _⟩ => .ok h
  | ⟨[], [h]⟩ => .ok h
  | ⟨[], _ :: f⟩ => last f

/-- `peek/1`; `none` is `empty`. -/
def peekBy (last : List α → Except QueueError α) : Queue α → Except QueueError (Option α)
  | ⟨[], []⟩ => .ok none
  | ⟨_, h :: _⟩ => .ok (some h)
  | ⟨[h], []⟩ => .ok (some h)
  | ⟨_ :: r, []⟩ => (last r).map some

/-- `peek_r/1`. -/
def peekRBy (last : List α → Except QueueError α) : Queue α → Except QueueError (Option α)
  | ⟨[], []⟩ => .ok none
  | ⟨h :: _, _⟩ => .ok (some h)
  | ⟨[], [h]⟩ => .ok (some h)
  | ⟨[], _ :: f⟩ => (last f).map some

/-- `lists:last/1`. -/
def listsLast : List α → Except QueueError α
  | [] => .error .functionClause
  | [x] => .ok x
  | _ :: rest => listsLast rest

/-- `get/1` with its own last clause. -/
def get (q : Queue α) : Except QueueError α := getBy listsLast q

/-- `get_r/1` with its own last clause. -/
def getR (q : Queue α) : Except QueueError α := getRBy listsLast q

/-- `peek/1` with its own last clause. -/
def peek (q : Queue α) : Except QueueError (Option α) := peekBy listsLast q

/-- `peek_r/1` with its own last clause. -/
def peekR (q : Queue α) : Except QueueError (Option α) := peekRBy listsLast q

/-! ## Whole queues -/

/-- `reverse/1`. -/
def reverse (q : Queue α) : Queue α := ⟨q.front, q.rear⟩

/-- `join/2`. -/
def join : Queue α → Queue α → Queue α
  | q, ⟨[], []⟩ => q
  | ⟨[], []⟩, q => q
  | ⟨r1, f1⟩, ⟨r2, f2⟩ => ⟨r2, f1 ++ (r1.reverse ++ f2)⟩

/-- `split_f1_to_r2/5`: moves `n` elements from `f1` to `r2`. -/
def splitF1ToR2 : ℕ → List α → List α → List α → List α →
    Except QueueError (Queue α × Queue α)
  | 0, r1, f1, r2, f2 => .ok (⟨r2, f2⟩, ⟨r1, f1⟩)
  | n + 1, r1, x :: f1, r2, f2 => splitF1ToR2 n r1 f1 (x :: r2) f2
  | _ + 1, _, [], _, _ => .error .functionClause

/-- `split_r1_to_f2/5`: moves `n` elements from `r1` to `f2`. -/
def splitR1ToF2 : ℕ → List α → List α → List α → List α →
    Except QueueError (Queue α × Queue α)
  | 0, r1, f1, r2, f2 => .ok (⟨r1, f1⟩, ⟨r2, f2⟩)
  | n + 1, x :: r1, f1, r2, f2 => splitR1ToF2 n r1 f1 r2 (x :: f2)
  | _ + 1, [], _, _, _ => .error .functionClause

/-- `split/2`. -/
def split (n : ℤ) (q : Queue α) : Except QueueError (Queue α × Queue α) :=
  if n = 0 then .ok (⟨[], []⟩, q)
  else if n ≥ 1 then
    let lf : ℤ := q.front.length
    if n < lf then
      match q.front with
      | x :: f1 => splitF1ToR2 (n - 1).toNat q.rear f1 [] [x]
      | [] => .error .badmatch
    else if n > lf then
      let lr : ℤ := q.rear.length
      let m := lr - (n - lf)
      if m < 0 then .error .badarg
      else if m > 0 then
        match q.rear with
        | x :: r1 => splitR1ToF2 (m - 1).toNat r1 q.front [x] []
        | [] => .error .badmatch
      else .ok (q, ⟨[], []⟩)
    else .ok (f2r q.front, r2f q.rear)
  else .error .badarg

/-! ## Filters -/

/-- What the function given to `filter/2` returns: a boolean or a list. -/
inductive FilterReply (α : Type) where
  | keep (b : Bool)
  | list (l : List α)

/-- `filter_f/2`. -/
def filterF (fn : α → FilterReply α) : List α → List α
  | [] => []
  | x :: f =>
    match fn x with
    | .keep true => x :: filterF fn f
    | .list [y] => y :: filterF fn f
    | .keep false => filterF fn f
    | .list [] => filterF fn f
    | .list l => l ++ filterF fn f

/-- `filter_r/2`. -/
def filterR (fn : α → FilterReply α) : List α → List α
  | [] => []
  | x :: r0 =>
    let r := filterR fn r0
    match fn x with
    | .keep true => x :: r
    | .list [y] => y :: r
    | .keep false => r
    | .list [] => r
    | .list l => l.reverse ++ r

/-- The end of `filter/2` and of `filtermap/2`: an empty side is refilled from
the other one. -/
def refill (r f : List α) : Queue α :=
  if r.isEmpty then f2r f
  else if f.isEmpty then r2f r
  else ⟨r, f⟩

/-- `filter/2`. -/
def filter (fn : α → FilterReply α) (q : Queue α) : Queue α :=
  refill (filterR fn q.rear) (filterF fn q.front)

/-- What the function given to `filtermap/2` returns: a boolean or `{true, Value}`. -/
inductive FiltermapReply (α : Type) where
  | keep (b : Bool)
  | value (y : α)

/-- `lists:filtermap/2`. -/
def filtermapF (fn : α → FiltermapReply α) : List α → List α
  | [] => []
  | x :: f =>
    match fn x with
    | .keep true => x :: filtermapF fn f
    | .value y => y :: filtermapF fn f
    | .keep false => filtermapF fn f

/-- `filtermap_r/2`, which only calls the function in the other order. -/
def filtermapR (fn : α → FiltermapReply α) : List α → List α
  | [] => []
  | x :: r0 =>
    let r := filtermapR fn r0
    match fn x with
    | .keep true => x :: r
    | .value y => y :: r
    | .keep false => r

/-- `filtermap/2`. -/
def filtermap (fn : α → FiltermapReply α) (q : Queue α) : Queue α :=
  refill (filtermapR fn q.rear) (filtermapF fn q.front)

/-! ## Deleting one element -/

/-- `delete_with_front/2`: without the first match, or `none` for `false`. -/
def deleteWithFront (pred : α → Bool) : List α → Option (List α)
  | [] => none
  | x :: rest =>
    match pred x with
    | true => some rest
    | false =>
      match deleteWithFront pred rest with
      | none => none
      | some f => some (x :: f)

/-- `delete_with_rear/2`: without the last match. -/
def deleteWithRear (pred : α → Bool) : List α → Option (List α)
  | [] => none
  | x :: rest =>
    match deleteWithRear pred rest with
    | none =>
      match pred x with
      | true => some rest
      | false => none
    | some r => some (x :: r)

/-- `delete_with/2`. -/
def deleteWith (pred : α → Bool) (q : Queue α) : Queue α :=
  match deleteWithFront pred q.front with
  | none =>
    match deleteWithRear pred q.rear with
    | none => q
    | some [] => f2r q.front
    | some r1 => ⟨r1, q.front⟩
  | some [] => r2f q.rear
  | some f1 => ⟨q.rear, f1⟩

/-- `delete_with_r/2`. -/
def deleteWithR (pred : α → Bool) (q : Queue α) : Queue α :=
  reverse (deleteWith pred (reverse q))

/-- `delete/2`: `delete_with/2` with the comparison `=:=` written into its
workers `delete_front/2` and `delete_rear/2`. -/
def delete [DecidableEq α] (item : α) (q : Queue α) : Queue α :=
  deleteWith (fun x => decide (x = item)) q

/-- `delete_r/2`. -/
def deleteR [DecidableEq α] (item : α) (q : Queue α) : Queue α :=
  deleteWithR (fun x => decide (x = item)) q

end Queue

end Otp.Stdlib
