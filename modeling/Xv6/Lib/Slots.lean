import Mathlib.Algebra.Order.BigOperators.Group.Finset
import Mathlib.Data.BitVec
import Mathlib.Tactic.Common

/-!
# A finite map in a table of slots

A table of slots holds bindings of keys to values; `none` is a free slot.  A key is looked up from
the front, and a new binding goes into a free slot or behind the last one.  As long as no key is in
two slots (`Distinct`), `map` is the finite map that the table stands for.
-/

set_option linter.unusedSectionVars false

namespace Xv6.Lib.Slots

open Function

variable {κ ν : Type} [DecidableEq κ]

/-- The slot that a key is found in; without one, the number of slots. -/
def index (a : List (Option (κ × ν))) (k : κ) : ℕ := a.findIdx fun x => x.any fun y => y.1 = k

def free (a : List (Option (κ × ν))) : ℕ := a.findIdx Option.isNone

/-- The value bound to a key. -/
def map (a : List (Option (κ × ν))) (k : κ) : Option ν :=
  (a[index a k]?.join).map Prod.snd

/-- Fill a slot, or the one behind the last. -/
def put (a : List (Option (κ × ν))) (i : ℕ) (x : Option (κ × ν)) : List (Option (κ × ν)) :=
  if i < a.length then a.set i x else a ++ [x]

/-- No key is in two slots. -/
def Distinct (a : List (Option (κ × ν))) : Prop :=
  ∀ (i j : ℕ) (k : κ) (v w : ν), a[i]? = some (some (k, v)) → a[j]? = some (some (k, w)) → i = j

variable {a : List (Option (κ × ν))} {i j : ℕ} {k l : κ} {v w : ν} {x : Option (κ × ν)}

variable (distinct : Distinct a)
include distinct

end Xv6.Lib.Slots
