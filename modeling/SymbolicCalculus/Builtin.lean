import SymbolicCalculus.Text.Blank

/-!
# Builtin functions

The functions that a formula may call, the names they are written with, and how many arguments each
takes. A name counts as a call only when blanks and an opening parenthesis follow it, and the
longest name wins, so that `log10(x)` is no `log`.
-/

namespace SymbolicCalculus

/-- The functions that a formula may call. -/
inductive Builtin where
  /-- The natural logarithm, or the logarithm to a base that is the second argument. -/
  | log
  | log10
  | sine
  | cosine
  | tangent
  deriving DecidableEq

namespace Builtin

/-- All of them, longer names first, so that the first name that fits a text is the longest. -/
def all : List Builtin :=
  [log10, log, sine, cosine, tangent]

/-- The characters of the name. -/
def letters : Builtin → List Char
  | log => ['l', 'o', 'g']
  | log10 => ['l', 'o', 'g', '1', '0']
  | sine => ['s', 'i', 'n']
  | cosine => ['c', 'o', 's']
  | tangent => ['t', 'a', 'n']

/-- The name that a formula calls it by. -/
def name (f : Builtin) : String :=
  String.ofList f.letters

/-- The function with a given name. -/
def ofName? (name : String) : Option Builtin :=
  all.find? fun f => f.letters == name.toList

/-- The most arguments that a call may have; the fewest is one. -/
def maxArity : Builtin → Nat
  | log => 2
  | _ => 1

/-- May a call have this many arguments? -/
def accepts (f : Builtin) (count : Nat) : Bool :=
  1 ≤ count && count ≤ f.maxArity

/-- The function with the longest name that a text starts with. -/
def startOf? (cs : List Char) : Option Builtin :=
  all.find? fun f => f.letters.isPrefixOf cs

/-- The function that is called at the start of a text, with what follows its name. -/
def called? (cs : List Char) : Option (Builtin × List Char) :=
  match startOf? cs with
  | none => none
  | some f =>
    let rest := cs.drop f.letters.length
    if (Text.skipBlanks rest).head? = some '(' then some (f, rest) else none

theorem mem_all (f : Builtin) : f ∈ all := by
  cases f <;> decide

theorem letters_injective {f g : Builtin} (h : f.letters = g.letters) : f = g := by
  cases f <;> cases g <;> simp_all [letters]

@[simp] theorem ofName?_name (f : Builtin) : ofName? f.name = some f := by
  cases f <;> simp [ofName?, name, all, letters]

theorem le_two_of_accepts {f : Builtin} {count : Nat} (h : f.accepts count = true) : count ≤ 2 := by
  have : f.maxArity ≤ 2 := by cases f <;> decide
  simp only [accepts, Bool.and_eq_true, decide_eq_true_eq] at h
  omega

theorem length_letters_pos (f : Builtin) : 0 < f.letters.length := by
  cases f <;> decide

/-- What follows a called name is shorter than the text that starts with it. -/
theorem length_of_called? {cs rest : List Char} {f : Builtin} (h : called? cs = some (f, rest)) :
    rest.length < cs.length := by
  unfold called? at h
  split at h
  · contradiction
  · next g hg =>
    obtain ⟨k, hk⟩ : g.letters <+: cs := by
      have := List.find?_some hg
      simpa using this
    simp only at h
    split at h
    · obtain ⟨rfl, rfl⟩ : g = f ∧ cs.drop g.letters.length = rest := by simpa using h
      have := length_letters_pos g
      have : cs.length = g.letters.length + k.length := by rw [← hk, List.length_append]
      rw [List.length_drop]
      omega
    · contradiction

end Builtin

end SymbolicCalculus
