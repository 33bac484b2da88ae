import TinyReactor.Data.Binary64
import TinyReactor.Data.KeyedList
import Mathlib.Data.String.Basic

/-!
# JSON values

The in-memory value type `nlohmann::json`: integers are kept as `int64_t` or `uint64_t`, all other
numbers as `double`, objects are `std::map`s. Strings are only copied and compared by the code
modelled here.
-/

namespace TinyReactor.Wire

open Data

inductive Json
  | null
  | boolean (value : Bool)
  | integer (value : Int64)
  | unsigned (value : UInt64)
  | float (value : Binary64)
  | string (value : String)
  | binary (bytes : List UInt8)
  | array (items : List Json)
  | object (members : List (String × Json))

namespace Json

theorem natAbs_int64_lt (value : Int64) : value.toInt.natAbs < 2 ^ 64 := by
  have hlow := value.le_toInt
  have hhigh := value.toInt_lt
  omega

theorem natAbs_uint64_lt (value : UInt64) : (value.toNat : ℤ).natAbs < 2 ^ 64 := by
  have hhigh := value.toNat_lt
  omega

/-- `static_cast<double>` of the two integer representations. -/
def doubleOfInt64 (value : Int64) : Binary64 := .ofInt value.toInt (natAbs_int64_lt value)

def doubleOfUInt64 (value : UInt64) : Binary64 := .ofInt value.toNat (natAbs_uint64_lt value)

/-! ## Equality -/

mutual

/-- `operator==`: numbers of different representations are compared after conversion. -/
def eq : Json → Json → Bool
  | .null, .null => true
  | .boolean left, .boolean right => left == right
  | .integer left, .integer right => left == right
  | .unsigned left, .unsigned right => left == right
  | .float left, .float right => left.eq right
  | .integer left, .unsigned right => left == right.toInt64
  | .unsigned left, .integer right => left.toInt64 == right
  | .integer left, .float right => (doubleOfInt64 left).eq right
  | .float left, .integer right => left.eq (doubleOfInt64 right)
  | .unsigned left, .float right => (doubleOfUInt64 left).eq right
  | .float left, .unsigned right => left.eq (doubleOfUInt64 right)
  | .string left, .string right => left == right
  | .binary left, .binary right => left == right
  | .array left, .array right => eqItems left right
  | .object left, .object right => eqMembers left right
  | _, _ => false

def eqItems : List Json → List Json → Bool
  | [], [] => true
  | left :: lefts, right :: rights => left.eq right && eqItems lefts rights
  | _, _ => false

def eqMembers : List (String × Json) → List (String × Json) → Bool
  | [], [] => true
  | (leftKey, left) :: lefts, (rightKey, right) :: rights =>
      leftKey == rightKey && left.eq right && eqMembers lefts rights
  | _, _ => false

end

/-- `j[key] = value` on a value that is null or an object; null becomes an object first. Every
other kind throws, which no caller here can reach. -/
def assign (j : Json) (key : String) (value : Json) : Json :=
  match j with
  | .object members => .object (insertKey key value members)
  | _ => .object [(key, value)]

/-! ## Domains -/

mutual

/-- The keys of every nested object strictly increase, as in a `std::map`. -/
def WellFormed : Json → Prop
  | .array items => ItemsWellFormed items
  | .object members => Ordered members ∧ MembersWellFormed members
  | _ => True

def ItemsWellFormed : List Json → Prop
  | [] => True
  | item :: items => item.WellFormed ∧ ItemsWellFormed items

def MembersWellFormed : List (String × Json) → Prop
  | [] => True
  | (_, value) :: members => value.WellFormed ∧ MembersWellFormed members

end

mutual

/-- Every nested number is one that a double holds exactly. -/
def Exact : Json → Prop
  | .integer value => (doubleOfInt64 value).toRat? = some (value.toInt : ℚ)
  | .unsigned value => (doubleOfUInt64 value).toRat? = some (value.toNat : ℚ)
  | .float value => value.IsFinite
  | .array items => ItemsExact items
  | .object members => MembersExact members
  | _ => True

def ItemsExact : List Json → Prop
  | [] => True
  | item :: items => item.Exact ∧ ItemsExact items

def MembersExact : List (String × Json) → Prop
  | [] => True
  | (_, value) :: members => value.Exact ∧ MembersExact members

end

theorem itemsWellFormed_iff {items : List Json} : ItemsWellFormed items ↔ ∀ item ∈ items, item.WellFormed := by
  induction items with
  | nil => simp [ItemsWellFormed]
  | cons item items ih => rw [ItemsWellFormed, ih, List.forall_mem_cons]

theorem membersWellFormed_iff {members : List (String × Json)} :
    MembersWellFormed members ↔ ∀ member ∈ members, member.2.WellFormed := by
  induction members with
  | nil => simp [MembersWellFormed]
  | cons member members ih => rw [MembersWellFormed, ih, List.forall_mem_cons]

theorem itemsExact_iff {items : List Json} : ItemsExact items ↔ ∀ item ∈ items, item.Exact := by
  induction items with
  | nil => simp [ItemsExact]
  | cons item items ih => rw [ItemsExact, ih, List.forall_mem_cons]

theorem membersExact_iff {members : List (String × Json)} :
    MembersExact members ↔ ∀ member ∈ members, member.2.Exact := by
  induction members with
  | nil => simp [MembersExact]
  | cons member members ih => rw [MembersExact, ih, List.forall_mem_cons]

theorem eqMembers_length {left right : List (String × Json)} (h : eqMembers left right = true) :
    left.length = right.length := by
  induction left generalizing right with
  | nil => cases right with
    | nil => rfl
    | cons entry rest => simp [eqMembers] at h
  | cons entry rest ih => cases right with
    | nil => simp [eqMembers] at h
    | cons entry' rest' =>
      simp only [eqMembers, Bool.and_eq_true] at h
      simp [ih h.2]

end Json

end TinyReactor.Wire
