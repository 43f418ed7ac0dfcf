import Otp.Lib.ByteBits

/-!
# Copying bits

`erts_copy_bits_fwd` and `erts_copy_bits_rev` of `erl_bits.c`. Both copy bits from
any bit offset to any other, byte by byte: a part of the first byte, whole bytes, and a
part of the last one. They differ in the direction in which the destination pointer
moves.

The source and the destination are separate arrays, and addresses are relative to the
two base pointers. The addresses of the source bytes that are read and of the
destination bytes that are read or written are recorded. An array in memory is far too
small for a number of bits to overflow.
-/

namespace Otp.Erts.Bits

open Otp.Lib

/-- The destination, with the addresses of the source bytes read and of the destination bytes
touched so far. -/
structure Mem where
  bytes : ℤ → BitVec 8
  reads : List ℤ
  touched : List ℤ

/-- `*src`. -/
def fetch (src : ℤ → BitVec 8) (p : ℤ) (m : Mem) : BitVec 64 × Mem :=
  (extend (src p), { m with reads := p :: m.reads })

/-- `*dst = w`. -/
def store (p : ℤ) (w : BitVec 64) (m : Mem) : Mem :=
  { m with bytes := Function.update m.bytes p (truncate w), touched := p :: m.touched }

/-- `*dst = MASK_BITS(w, *dst, mask)`. -/
def storeMasked (p : ℤ) (w mask : BitVec 64) (m : Mem) : Mem :=
  store p (maskBits w (extend (m.bytes p)) mask) m

/-- All bits are in the same destination byte. -/
def copyInByte (src : ℤ → BitVec 8) (srcp dstp : ℤ) (soffs doffs n : ℕ) (mask : BitVec 64)
    (m : Mem) : Mem :=
  if soffs = doffs then
    let r := fetch src srcp m
    storeMasked dstp r.1 mask r.2
  else if doffs < soffs then
    let r := fetch src srcp m
    let bits := r.1 <<< (soffs - doffs)
    if 8 < soffs + n then
      let r := fetch src (srcp + 1) r.2
      storeMasked dstp (bits ||| (r.1 >>> (8 - (soffs - doffs)))) mask r.2
    else storeMasked dstp bits mask r.2
  else
    let r := fetch src srcp m
    storeMasked dstp (r.1 >>> (doffs - soffs)) mask r.2

section Loops

variable (step : ℤ) (src : ℤ → BitVec 8)

/-- Whole bytes that are aligned: `sys_memcpy`, or the loop in its place. -/
def copyBytes : ℕ → ℤ → ℤ → Mem → Mem
  | 0, _, _, m => m
  | count + 1, srcp, dstp, m =>
    let r := fetch src srcp m
    copyBytes count (srcp + 1) (dstp + step) (store dstp r.1 r.2)

/-- The bits are aligned in the same way. -/
def copyAligned (lmask rmask : BitVec 64) (count : ℕ) (srcp dstp : ℤ) (m : Mem) : Mem :=
  let head :=
    if lmask ≠ 0 then
      let r := fetch src srcp m
      (srcp + 1, dstp + step, storeMasked dstp r.1 lmask r.2)
    else (srcp, dstp, m)
  let m := copyBytes step src count head.1 head.2.1 head.2.2
  if rmask ≠ 0 then
    let r := fetch src (head.1 + count) m
    storeMasked (head.2.1 + step * count) r.1 rmask r.2
  else m

/-- Whole bytes that must be shifted, with the byte read last: it in the end, the pointers and the
memory. -/
def shiftBytes (lshift rshift : ℕ) :
    ℕ → BitVec 64 → ℤ → ℤ → Mem → BitVec 64 × ℤ × ℤ × Mem
  | 0, bits, srcp, dstp, m => (bits, srcp, dstp, m)
  | count + 1, bits, srcp, dstp, m =>
    let bits1 := bits <<< lshift
    let r := fetch src srcp m
    shiftBytes lshift rshift count r.1 (srcp + 1) (dstp + step)
      (store dstp (bits1 ||| (r.1 >>> rshift)) r.2)

/-- The bits must be shifted into position: what follows once the shifts are known. -/
def copyShifted (lmask rmask : BitVec 64) (count lshift rshift : ℕ) (bits : BitVec 64)
    (srcp dstp : ℤ) (m : Mem) : Mem :=
  let head :=
    if lmask ≠ 0 then
      let bits1 := bits <<< lshift
      let r := fetch src srcp m
      (r.1, srcp + 1, dstp + step, storeMasked dstp (bits1 ||| (r.1 >>> rshift)) lmask r.2)
    else (bits, srcp, dstp, m)
  let body := shiftBytes step src lshift rshift count head.1 head.2.1 head.2.2.1 head.2.2.2
  if rmask ≠ 0 then
    let bits1 := body.1 <<< lshift
    if (rmask <<< rshift) &&& 0xff#64 ≠ 0 then
      let r := fetch src body.2.1 body.2.2.2
      storeMasked body.2.2.1 (bits1 ||| (r.1 >>> rshift)) rmask r.2
    else storeMasked body.2.2.1 bits1 rmask body.2.2.2
  else body.2.2.2

/-- What the two functions have in common. -/
def copyBits (soffs doffs n : ℕ) (m : Mem) : Mem :=
  if n = 0 then m
  else
    let srcp : ℤ := (soffs >>> 3 : ℕ)
    let dstp : ℤ := step * (doffs >>> 3 : ℕ)
    let soffs := soffs &&& 7
    let doffs := doffs &&& 7
    let deoffs := (doffs + n) &&& 7
    let lmask := if doffs ≠ 0 then makeMask (8 - doffs) else 0
    let rmask := if deoffs ≠ 0 then makeMask deoffs <<< (8 - deoffs) else 0
    if doffs + n < 8 then
      copyInByte src srcp dstp soffs doffs n
        (if lmask &&& rmask ≠ 0 then lmask &&& rmask else lmask ||| rmask) m
    else
      let count := (if lmask ≠ 0 then n - (8 - doffs) else n) >>> 3
      if soffs = doffs then copyAligned step src lmask rmask count srcp dstp m
      else if doffs < soffs then
        let lshift := soffs - doffs
        let r := fetch src srcp m
        copyShifted step src lmask rmask count lshift (8 - lshift) r.1
          (if 8 < soffs + n then srcp + 1 else srcp) dstp r.2
      else
        let rshift := doffs - soffs
        copyShifted step src lmask rmask count (8 - rshift) rshift 0 srcp dstp m

end Loops

/-- `erts_copy_bits_fwd(src, soffs, dst, doffs, n)`. -/
def ertsCopyBitsFwd (src : ℤ → BitVec 8) (soffs : ℕ) (dst : ℤ → BitVec 8) (doffs n : ℕ) : Mem :=
  copyBits 1 src soffs doffs n ⟨dst, [], []⟩

/-- `erts_copy_bits_rev(src, soffs, dst, doffs, n)`. -/
def ertsCopyBitsRev (src : ℤ → BitVec 8) (soffs : ℕ) (dst : ℤ → BitVec 8) (doffs n : ℕ) : Mem :=
  copyBits (-1) src soffs doffs n ⟨dst, [], []⟩

end Otp.Erts.Bits
