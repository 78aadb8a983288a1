import SolutionFlow.Algebra.Names
import SolutionFlow.Expression.Eval

/-! What the value of an expression depends on. One that asks no nested query has the same value or error on
all rows that agree on the names it mentions, whatever else they bind and whoever answers nested
queries. -/
namespace SolutionFlow

mutual

/-- An expression asks no nested query. -/
def Expr.ExistsFree : Expr → Prop
  | .var _ | .constant _ | .bound _ | .now => True
  | .not arg | .str arg => arg.ExistsFree
  | .and left right | .or left right => left.ExistsFree ∧ right.ExistsFree
  | .compare _ left right | .arith _ left right => left.ExistsFree ∧ right.ExistsFree
  | .aggregate call => call.ExistsFree
  | .exists _ => False

def Aggregate.ExistsFree : Aggregate → Prop
  | .mk _ _ none => True
  | .mk _ _ (some arg) => arg.ExistsFree

end

namespace Solution

variable {a b : Solution} {names more : List String}

/-- Two rows bind the given names to the same terms, or both do not bind them. -/
def AgreeOn (names : List String) (a b : Solution) : Prop := ∀ name ∈ names, a.get? name = b.get? name

theorem AgreeOn.mono (h : AgreeOn more a b) (hSub : ∀ name ∈ names, name ∈ more) : AgreeOn names a b :=
  fun name hName => h name (hSub name hName)

theorem agreeOn_append : AgreeOn (names ++ more) a b ↔ AgreeOn names a b ∧ AgreeOn more a b :=
  List.forall_mem_append

/-- A row agrees with its part on some names where these are concerned. -/
theorem agreeOn_restrict (s : Solution) (names : List String) : AgreeOn names (s.restrict names) s := by
  intro name hName
  rw [restrict, get?_filterNames, if_pos (List.contains_iff_mem.mpr hName)]

end Solution

namespace Expr

variable {around around' : Surroundings} {row row' : Solution}

/-- An expression without nested queries depends on its names only. -/
theorem eval_congr :
    (x : Expr) → x.ExistsFree → Solution.AgreeOn x.varNames row row' →
      x.eval around row = x.eval around' row'
  | .var name, _, h => by
    rw [eval, eval, h name (by simp [varNames])]
  | .constant _, _, _ => rfl
  | .bound name, _, h => by
    rw [eval, eval, Solution.binds, Solution.binds, h name (by simp [varNames])]
  | .not arg, hFree, h => by
    rw [eval, eval, arg.eval_congr hFree h]
  | .and left right, hFree, h => by
    obtain ⟨hLeft, hRight⟩ := Solution.agreeOn_append.mp h
    rw [eval, eval, left.eval_congr hFree.1 hLeft, right.eval_congr hFree.2 hRight]
  | .or left right, hFree, h => by
    obtain ⟨hLeft, hRight⟩ := Solution.agreeOn_append.mp h
    rw [eval, eval, left.eval_congr hFree.1 hLeft, right.eval_congr hFree.2 hRight]
  | .compare op left right, hFree, h => by
    obtain ⟨hLeft, hRight⟩ := Solution.agreeOn_append.mp h
    rw [eval, eval, left.eval_congr hFree.1 hLeft, right.eval_congr hFree.2 hRight]
  | .arith op left right, hFree, h => by
    obtain ⟨hLeft, hRight⟩ := Solution.agreeOn_append.mp h
    rw [eval, eval, left.eval_congr hFree.1 hLeft, right.eval_congr hFree.2 hRight]
  | .str arg, hFree, h => by
    rw [eval, eval, arg.eval_congr hFree h]
  | .now, _, _ => rfl
  | .aggregate _, _, _ => rfl
  | .exists _, hFree, _ => absurd hFree id

theorem admits_congr {x : Expr} (hFree : x.ExistsFree) (h : Solution.AgreeOn x.varNames row row') :
    x.admits around row = x.admits around' row' := by
  rw [admits, admits, holds, holds, x.eval_congr hFree h]

end Expr

end SolutionFlow
