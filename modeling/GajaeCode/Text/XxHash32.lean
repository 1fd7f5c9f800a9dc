import Mathlib

/-! The 32-bit xxHash of a byte sequence with seed 0. -/
namespace GajaeCode.Text

namespace XxHash32

def prime1 : UInt32 := 2654435761
def prime2 : UInt32 := 2246822519
def prime3 : UInt32 := 3266489917
def prime4 : UInt32 := 668265263
def prime5 : UInt32 := 374761393

def rotl (x : UInt32) (r : UInt32) : UInt32 := (x <<< r) ||| (x >>> (32 - r))

def readLane (a b c d : UInt8) : UInt32 :=
  a.toUInt32 ||| (b.toUInt32 <<< 8) ||| (c.toUInt32 <<< 16) ||| (d.toUInt32 <<< 24)

def round (acc lane : UInt32) : UInt32 := rotl (acc + lane * prime2) 13 * prime1

/-- The four accumulators over all whole stripes, with the bytes left over. -/
def stripes : List UInt8 → UInt32 × UInt32 × UInt32 × UInt32 →
    (UInt32 × UInt32 × UInt32 × UInt32) × List UInt8
  | a0 :: a1 :: a2 :: a3 :: b0 :: b1 :: b2 :: b3 :: c0 :: c1 :: c2 :: c3 ::
      d0 :: d1 :: d2 :: d3 :: rest, (v1, v2, v3, v4) =>
      stripes rest (round v1 (readLane a0 a1 a2 a3), round v2 (readLane b0 b1 b2 b3),
        round v3 (readLane c0 c1 c2 c3), round v4 (readLane d0 d1 d2 d3))
  | rest, v => (v, rest)

def lanes : List UInt8 → UInt32 → UInt32
  | a :: b :: c :: d :: rest, h => lanes rest (rotl (h + readLane a b c d * prime3) 17 * prime4)
  | rest, h => rest.foldl (fun h b => rotl (h + b.toUInt32 * prime5) 11 * prime1) h

def avalanche (h : UInt32) : UInt32 :=
  let h := (h ^^^ (h >>> 15)) * prime2
  let h := (h ^^^ (h >>> 13)) * prime3
  h ^^^ (h >>> 16)

end XxHash32

open XxHash32 in
def xxh32 (bytes : List UInt8) : UInt32 :=
  let length := UInt32.ofNat bytes.length
  if bytes.length < 16 then avalanche (lanes bytes (prime5 + length))
  else
    let (v, rest) := stripes bytes (prime1 + prime2, prime2, 0, 0 - prime1)
    avalanche (lanes rest (rotl v.1 1 + rotl v.2.1 7 + rotl v.2.2.1 12 + rotl v.2.2.2 18 + length))

example : xxh32 [] = 0x02cc5d05 := by decide
example : xxh32 [0x61, 0x62, 0x63] = 0x32d153ff := by decide

end GajaeCode.Text
