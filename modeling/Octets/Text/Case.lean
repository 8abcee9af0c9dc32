import Octets.Text.Basic
/-!
Letter case. A case map sends a code point to its lower and its upper form; a form may be
more than one code point long. Which map a system has depends on the Unicode version it
knows, so it is a parameter where it matters. Core Lean only.
-/
namespace Octets

structure CaseMap where
  lower : CodePoint → Text
  upper : CodePoint → Text

/-- The case map of the letters A to Z and a to z, which is part of every other one. -/
def CaseMap.ascii : CaseMap := ⟨fun c => [c.asciiLower], fun c => [c.asciiUpper]⟩

end Octets
