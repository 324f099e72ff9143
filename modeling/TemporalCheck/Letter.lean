import TemporalCheck.OrdSet

/-!
# Letters

A letter is the set of propositions that hold at one position of a word.
-/

namespace TemporalCheck

abbrev Letter := OrdSet String

abbrev Word (σ : Type) := Nat → σ

namespace Letter

def render (l : Letter) : String := "\x7b" ++ ", ".intercalate l.toList ++ "\x7d"

def project (l : Letter) (names : OrdSet String) : Letter := l.inter names

theorem mem_project {l : Letter} {names : OrdSet String} {a : String} :
    a ∈ l.project names ↔ a ∈ l ∧ a ∈ names := OrdSet.mem_inter

end Letter

end TemporalCheck
