import GajaeCode.Text.Utf8
import GajaeCode.Text.Scan

/-! Placeholders (`packages/coding-agent/src/secrets/obfuscator.ts`). The HMAC of the crypto library
is a parameter of the development. -/
namespace GajaeCode.Secrets
open Text List

/-- `createHmac("sha256", key).update(message).digest()`. -/
structure Hmac where
  digest : List UInt8 → List UInt8 → List UInt8
  length_digest : ∀ key message, (digest key message).length = 32

def base64UrlAlphabet : JsStr :=
  lit "ABCDEFGHIJKLMNOPQRSTUVWXYZabcdefghijklmnopqrstuvwxyz0123456789-_"

def base64UrlUnit (n : Nat) : UInt16 := base64UrlAlphabet.getD n 0x41

/-- `Buffer.toString("base64url")`. -/
def base64Url : List UInt8 → JsStr
  | a :: b :: c :: rest =>
    let n := a.toNat * 0x10000 + b.toNat * 0x100 + c.toNat
    base64UrlUnit (n / 0x40000) :: base64UrlUnit (n / 0x1000 % 64) ::
      base64UrlUnit (n / 64 % 64) :: base64UrlUnit (n % 64) :: base64Url rest
  | [a, b] =>
    let n := a.toNat * 0x100 + b.toNat
    [base64UrlUnit (n / 0x400), base64UrlUnit (n / 16 % 64), base64UrlUnit (n % 16 * 4)]
  | [a] => [base64UrlUnit (a.toNat / 4), base64UrlUnit (a.toNat % 4 * 16)]
  | [] => []

/-- `[A-Za-z0-9_-]`. -/
def isTagUnit (u : UInt16) : Bool :=
  (0x41 ≤ u && u ≤ 0x5a) || (0x61 ≤ u && u ≤ 0x7a) || (0x30 ≤ u && u ≤ 0x39) || u == 0x5f || u == 0x2d

def placeholderDomain : JsStr := lit "gjc.secret-obfuscation.placeholder.v1" ++ [0]

def buildPlaceholder (hmac : Hmac) (secret : JsStr) (key : List UInt8) : JsStr :=
  let tag := base64Url ((hmac.digest key (encodeUtf8 placeholderDomain ++ encodeUtf8 secret)).take 16)
  lit "#GJC1_" ++ tag ++ lit "#"

/-- What `PLACEHOLDER_RE` matches. -/
def isPlaceholder (s : JsStr) : Bool :=
  s.take 6 = lit "#GJC1_" && ((s.drop 6).take 22).length = 22 &&
    ((s.drop 6).take 22).all isTagUnit && s.drop 28 = lit "#"

structure IsTagged (s tag : JsStr) : Prop where
  eq : s = lit "#GJC1_" ++ tag ++ lit "#"
  length : tag.length = 22
  units : ∀ u ∈ tag, isTagUnit u = true

theorem IsTagged.length_eq {s tag} (h : IsTagged s tag) : s.length = 29 := by
  have hopen : (lit "#GJC1_").length = 6 := by decide
  have hclose : (lit "#").length = 1 := by decide
  rw [h.eq, length_append, length_append, h.length, hopen, hclose]

end GajaeCode.Secrets
