import TemporalCheck.Automaton.Basic

/-!
# Merging of states

Two states are joinable when they agree on the initial flag, on the outgoing row
and on membership in every final set. Merging removes the larger label of the
first joinable pair and leads its incoming transitions to the smaller one, until
no joinable pair is left.
-/

namespace TemporalCheck

def firstPair {α : Type} (r : α → α → Bool) : List α → Option (α × α)
  | [] => none
  | a :: l => match l.find? (r a) with
    | some b => some (a, b)
    | none => firstPair r l

namespace Automaton

variable {σ δ : Type} [Ord σ] [Std.TransOrd σ] [Std.LawfulEqOrd σ] [DecidableEq σ]

structure Profile (σ : Type) [Ord σ] where
  initial : Bool
  final : List Bool
  row : Option (Row σ)
deriving DecidableEq

def profile (A : Automaton σ δ) (s : State δ) : Profile σ :=
  ⟨s.initial, A.finalSets.map fun finals => finals.contains s.label, A.rows.get? s.label⟩

def joinablePair (A : Automaton σ δ) : Option (String × String) :=
  let profiles := A.states.values.map fun s => (s.label, A.profile s)
  (firstPair (fun a b => decide (a.2 = b.2)) profiles).map fun p => (p.1.1, p.2.1)

def redirect (keep remove : String) (row : Row σ) : Row σ :=
  match row.get? remove with
  | none => row
  | some symbols =>
      let rest := row.erase remove
      rest.insert keep (((rest.get? keep).getD .empty).union symbols)

def mergePair (A : Automaton σ δ) (keep remove : String) : Automaton σ δ :=
  ⟨A.states.erase remove, (A.rows.erase remove).mapValues (redirect keep remove),
    A.acceptance.eraseState remove⟩

/-- Each merge takes a state away, so the number of states bounds the merges. -/
def mergeUpTo : Nat → Automaton σ δ → Automaton σ δ
  | 0, A => A
  | n + 1, A => match A.joinablePair with
    | some (keep, remove) => mergeUpTo n (A.mergePair keep remove)
    | none => A

def merged (A : Automaton σ δ) : Automaton σ δ := A.mergeUpTo A.size

end Automaton

end TemporalCheck
