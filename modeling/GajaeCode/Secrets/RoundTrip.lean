import GajaeCode.Secrets.State

/-! `deobfuscate` after `obfuscate`: the pieces a call leaves, and when the placeholders in them can be
read back. -/
namespace GajaeCode.Secrets
open Text Data List

section

variable {f g : JsStr → JsStr} {ps : List (Piece UInt16)}

/-- Text that starts like a placeholder stands right before one. -/
def OpenTag (ps : List (Piece UInt16)) : Prop := ∃ before tag s after,
  ps = before ++ tag.map .unit ++ .hit s :: after ∧ isPlaceholder (tag ++ lit "#") = true

variable {s : JsStr}

end

namespace SecretObfuscator

section

/-- `output` is `text` with some of the secrets in `K` written as `f` writes them. -/
structure Cut (K : JsStr → Prop) (f : JsStr → JsStr) (text output : JsStr)
    (ps : List (Piece UInt16)) : Prop where
  source : render id ps = text
  output : render f ps = output
  hit_mem : ∀ s, .hit s ∈ ps → K s

variable {K : JsStr → Prop} {f : JsStr → JsStr} {text output : JsStr}
variable {rt : Runtime} {o : SecretObfuscator} {state : JsStr × SecretObfuscator}

theorem Known.recordSecret {s} (h : o.Known s) (secret : JsStr) : (o.recordSecret rt secret).Known s :=
  known_assocSet _ (.inr h)

section

variable (hclear : ∀ s s', K s → K s' → Clear s (f s'))
include hclear

end

end

variable {rt : Runtime} {entries : List SecretEntry} {key : Key} {o : SecretObfuscator}

section

variable (hmode : ∀ e ∈ entries, e.mode.getD .obfuscate = .obfuscate)
include hmode

variable {text output : JsStr} (hreach : Reachable rt (construct rt entries key) o)
include hreach

end

end SecretObfuscator

end GajaeCode.Secrets
