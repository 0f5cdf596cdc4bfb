import Oidc4acLab.Python.Json

/-! # Equality of loaded values

Truth values are numbers, and numbers are compared exactly whether they are integers or
doubles. There is one `NaN` that `json.loads` gives: it is not equal to itself, but inside a
container and as a key it is taken for the same. Dictionaries are equal without regard to order.
-/
namespace Oidc4acLab.Python
open Binary64

/-- What a scalar is compared by, a number in units of `2^-scale`. -/
inductive Compared
  | none
  | nan
  | infinity (negative : Bool)
  | number (units : ℤ)
  | str (t : Text)
  deriving DecidableEq

def Scalar.compared : Scalar → Compared
  | .none => .none
  | .bool b => .number (if b then 2^scale else 0)
  | .int z => .number (z*2^scale)
  | .float .nan => .nan
  | .float (.infinity negative) => .infinity negative
  | .float (.finite negative k) => .number (if negative then -magnitude k else magnitude k)
  | .str t => .str t

mutual

/-- `v is w or v == w` -/
def same : Value → Value → Bool
  | .leaf a, .leaf b => a.compared = b.compared
  | .arr vs, .arr ws => sameItems vs ws
  | .obj ms, .obj ns => ms.length == ns.length && sameMembers ms ns
  | _, _ => false

def sameItems : List Value → List Value → Bool
  | [], [] => true
  | v :: vs, w :: ws => same v w && sameItems vs ws
  | _, _ => false

def sameMembers : List (Text × Value) → List (Text × Value) → Bool
  | [], _ => true
  | (name,v) :: ms, ns =>
    (match ns.lookup name with
    | some w => same v w
    | none => false) && sameMembers ms ns

end

/-- `v == w` -/
def equal (v w : Value) : Bool :=
  match v with
  | .leaf (.float .nan) => false
  | _ => same v w

/-- `bool(v)` -/
def truthy : Value → Bool
  | .leaf .none => false
  | .leaf (.bool b) => b
  | .leaf (.int z) => z ≠ 0
  | .leaf (.float (.finite _ k)) => k.val ≠ 0
  | .leaf (.float _) => true
  | .leaf (.str t) => !t.isEmpty
  | .arr items => !items.isEmpty
  | .obj ms => !ms.isEmpty

/-- A scalar as the key of a dictionary. -/
structure Key where
  scalar : Scalar

instance keyBEq : BEq Key := ⟨fun a b => a.scalar.compared = b.scalar.compared⟩

theorem key_beq {a b : Key} : (a == b) = true ↔ a.scalar.compared = b.scalar.compared :=
  decide_eq_true_iff

instance keyEquivBEq : EquivBEq Key where
  rfl := key_beq.mpr rfl
  symm h := key_beq.mpr (key_beq.mp h).symm
  trans h h' := key_beq.mpr ((key_beq.mp h).trans (key_beq.mp h'))

end Oidc4acLab.Python
