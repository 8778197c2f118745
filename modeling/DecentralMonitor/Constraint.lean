/-
# Constraints over integers and bit-vectors

A general library.  The fragment of a constraint solver's language that has
integers, bit-vectors of any width, uninterpreted functions from integers to
bit-vectors and quantification over an integer constant.

* `Term` and `Formula` are the syntax, indexed by the sort of the value.
* `Interp` gives the uninterpreted symbols a meaning; `Term.eval` and
  `Formula.Holds` are the semantics, `Satisfiable` the existence of a model.
* `Solver` is what is assumed of a solver: its answer decides `Satisfiable`.

Constants of different sorts are different constants even if they share a name.
-/
import Mathlib.Data.BitVec
import Mathlib.Logic.Function.Basic

namespace Constraint

/-! ## Syntax -/

/-- The sorts. -/
inductive Srt
  | int
  | bv (w : ℕ)
  deriving DecidableEq, Repr

/-- The values of a sort. -/
abbrev Srt.Value : Srt → Type
  | .int => ℤ
  | .bv w => BitVec w

/-- Terms of a given sort. -/
inductive Term : Srt → Type
  /-- An integer literal. -/
  | intVal (z : ℤ) : Term .int
  /-- An integer literal in a bit-vector sort; it is taken modulo `2 ^ w`. -/
  | bvVal (w : ℕ) (z : ℤ) : Term (.bv w)
  /-- An uninterpreted constant. -/
  | const (s : Srt) (name : String) : Term s
  /-- An uninterpreted function applied to an integer. -/
  | app (w : ℕ) (f : String) (x : Term .int) : Term (.bv w)
  /-- Integer subtraction. -/
  | sub (x y : Term .int) : Term .int
  /-- Bitwise conjunction. -/
  | bvAnd {w : ℕ} (x y : Term (.bv w)) : Term (.bv w)
  /-- The unsigned value of a bit-vector. -/
  | bv2int {w : ℕ} (x : Term (.bv w)) : Term .int

/-- Formulas. -/
inductive Formula
  | ff
  | eq {s : Srt} (x y : Term s)
  | ne {s : Srt} (x y : Term s)
  | le (x y : Term .int)
  | and (φ ψ : Formula)
  | or (φ ψ : Formula)
  | implies (φ ψ : Formula)
  /-- Quantification over the integer constant `x`. -/
  | forallInt (x : String) (φ : Formula)

/-- The disjunction of a list; the empty one is false. -/
def mkOr (φs : List Formula) : Formula := φs.foldr .or .ff

/-! ## Semantics -/

/-- A meaning for every uninterpreted symbol. -/
structure Interp where
  const : (s : Srt) → String → s.Value
  func : (w : ℕ) → String → ℤ → BitVec w

/-- The interpretation with the integer constant `x` set to `z`. -/
def Interp.setInt (I : Interp) (x : String) (z : ℤ) : Interp where
  const
    | .int, y => if y = x then z else I.const .int y
    | .bv w, y => I.const (.bv w) y
  func := I.func

theorem Interp.setInt_const_self (I : Interp) (x : String) (z : ℤ) :
    (I.setInt x z).const .int x = z := by
  show (if x = x then z else I.const .int x) = z
  exact if_pos rfl

/-- The value of a term. -/
def Term.eval (I : Interp) : {s : Srt} → Term s → s.Value
  | _, .intVal z => z
  | _, .bvVal w z => BitVec.ofInt w z
  | s, .const _ name => I.const s name
  | _, .app w f x => I.func w f (x.eval I)
  | _, .sub x y => Int.sub (x.eval I) (y.eval I)
  | _, .bvAnd x y => BitVec.and (x.eval I) (y.eval I)
  | _, .bv2int x => Int.ofNat (BitVec.toNat (x.eval I))

/-- The truth of a formula. -/
def Formula.Holds (I : Interp) : Formula → Prop
  | .ff => False
  | .eq x y => x.eval I = y.eval I
  | .ne x y => x.eval I ≠ y.eval I
  | .le x y => Int.le (x.eval I) (y.eval I)
  | .and φ ψ => φ.Holds I ∧ ψ.Holds I
  | .or φ ψ => φ.Holds I ∨ ψ.Holds I
  | .implies φ ψ => φ.Holds I → ψ.Holds I
  | .forallInt x φ => ∀ z : ℤ, φ.Holds (I.setInt x z)

/-- The constraints have a model. -/
def Satisfiable (Γ : List Formula) : Prop := ∃ I, ∀ φ ∈ Γ, φ.Holds I

/-- A disjunction holds when one of its members does. -/
theorem holds_mkOr {I : Interp} {φs : List Formula} :
    (mkOr φs).Holds I ↔ ∃ φ ∈ φs, φ.Holds I := by
  unfold mkOr
  induction φs with
  | nil => simp [Formula.Holds]
  | cons φ φs ih => rw [List.foldr_cons, Formula.Holds, ih, List.exists_mem_cons_iff]

/-! ## Solvers -/

/-- A solver whose answer decides satisfiability. -/
structure Solver where
  /-- The solver answers `sat`. -/
  check : List Formula → Bool
  check_eq_true_iff : ∀ Γ, check Γ = true ↔ Satisfiable Γ

/-- Such a solver exists, if not as a program. -/
noncomputable instance : Inhabited Solver where
  default := by
    classical
    exact ⟨fun Γ => decide (Satisfiable Γ), fun Γ => decide_eq_true_iff⟩

/-! ## Naming constants

A model of a set of constraints is usually given by a meaning for each of its
constants.  When different constants have different names, such a meaning is one
for names. -/

section Naming

variable {κ : Type} {w : ℕ}

/-- The interpretation that gives the constant `k` of the sort `bv w`, named
`text k`, the value `val k`, and every other symbol of that kind the value zero. -/
noncomputable def Interp.ofNames (text : κ → String) (val : κ → BitVec w)
    (func : (w : ℕ) → String → ℤ → BitVec w) : Interp where
  const
    | .int, _ => (0 : ℤ)
    | .bv w', y =>
      if h : w' = w then h ▸ Function.extend text val (fun _ => BitVec.ofNat w 0) y
      else BitVec.ofNat _ 0
  func := func

theorem Interp.ofNames_const {text : κ → String} (htext : Function.Injective text)
    (val : κ → BitVec w) (func : (w : ℕ) → String → ℤ → BitVec w) (k : κ) :
    (Interp.ofNames text val func).const (.bv w) (text k) = val k := by
  have hw : w = w := rfl
  show (if h : w = w then h ▸ Function.extend text val (fun _ => BitVec.ofNat w 0) (text k)
    else BitVec.ofNat w 0) = val k
  rw [dif_pos hw]
  exact htext.extend_apply val (fun _ => BitVec.ofNat w 0) k

end Naming

end Constraint
