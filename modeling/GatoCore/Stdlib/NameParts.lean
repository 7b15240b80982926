import GatoCore.Stdlib.Values

/-!
# Names from texts

Source: `sanitizeNamePart` of `stdlib/ptstdlib.js`.
-/

namespace GatoCore.Stdlib

def isNameChar (c : Char) : Bool := c.isAlphanum || c ∈ ['.', '_', '-']

/-- `text.replace(/[^a-zA-Z0-9._-]+/g, "_")`, inside a run of such characters or not. -/
def replaceRuns (inside : Bool) : Text → Text
  | [] => []
  | c :: cs =>
      if isNameChar c then c :: replaceRuns false cs
      else if inside then replaceRuns true cs
      else '_' :: replaceRuns true cs

/-- `text.replace(/^_+|_+$/g, "")`. -/
def stripUnderscores (t : Text) : Text :=
  ((t.dropWhile (· = '_')).reverse.dropWhile (· = '_')).reverse

/-- `agora` is the text of the clock. -/
def sanitizeNamePart (agora value : Text) : Text :=
  let t := stripUnderscores (replaceRuns false value)
  if t = [] then "item_".toList ++ agora else t

end GatoCore.Stdlib
