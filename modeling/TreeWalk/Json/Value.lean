/-
JSON values.

Members of an object keep the order in which they were written, and a name may
occur twice: what a repeated name means is for the reader of the value to decide,
so nothing is dropped here.  `Json.normalize` gives the reading in which the last
occurrence of a name counts and names are in order.

Numbers remember how they were written.  A whole number within 64 bits is exact;
every other number is a double.
-/

namespace TreeWalk

/-- A number: exact when it is whole and fits in 64 bits, a double otherwise. -/
inductive Number where
  | int (value : Int)
  | float (value : Float)
deriving Inhabited

/-- A JSON value. -/
inductive Json where
  | null
  | bool (value : Bool)
  | num (value : Number)
  | str (value : String)
  | arr (items : List Json)
  | obj (members : List (String × Json))
deriving Inhabited

namespace Number

/-- Numbers of different kinds differ; doubles compare as doubles, so `0.0` equals `-0.0`. -/
def same : Number → Number → Bool
  | .int a, .int b => a == b
  | .float a, .float b => a == b
  | _, _ => false

instance : BEq Number := ⟨same⟩

/-- Whether a whole number fits in 64 bits, signed or not. -/
def fits (v : Int) : Prop := -0x8000000000000000 ≤ v ∧ v ≤ 0xffffffffffffffff

instance (v : Int) : Decidable (fits v) := inferInstanceAs (Decidable (_ ∧ _))

end Number

namespace Json

/-- Puts a member into a list in order of names, over an earlier one of the same name. -/
def insertMember (name : String) (value : Json) : List (String × Json) → List (String × Json)
  | [] => [(name, value)]
  | (other, old) :: rest =>
    if name < other then (name, value) :: (other, old) :: rest
    else if name = other then (name, value) :: rest
    else (other, old) :: insertMember name value rest

mutual
/-- The value with the members of every object in order of names, the last of each name only. -/
def normalize : Json → Json
  | .null => .null
  | .bool b => .bool b
  | .num n => .num n
  | .str s => .str s
  | .arr items => .arr (normalizeItems items)
  | .obj members => .obj (normalizeMembers [] members)
/-- Normalizes each item of a list. -/
def normalizeItems : List Json → List Json
  | [] => []
  | v :: rest => v.normalize :: normalizeItems rest
/-- Files the normalized members one after another. -/
def normalizeMembers (done : List (String × Json)) : List (String × Json) → List (String × Json)
  | [] => done
  | (name, v) :: rest => normalizeMembers (insertMember name v.normalize done) rest
end

mutual
/-- Equality of values: numbers by `Number.same`, all else by structure. -/
def same : Json → Json → Bool
  | .null, .null => true
  | .bool a, .bool b => a == b
  | .num a, .num b => a.same b
  | .str a, .str b => a == b
  | .arr a, .arr b => sameItems a b
  | .obj a, .obj b => sameMembers a b
  | _, _ => false
/-- Item by item equality. -/
def sameItems : List Json → List Json → Bool
  | [], [] => true
  | a :: as, b :: bs => a.same b && sameItems as bs
  | _, _ => false
/-- Member by member equality, names and order included. -/
def sameMembers : List (String × Json) → List (String × Json) → Bool
  | [], [] => true
  | (k, a) :: as, (l, b) :: bs => k == l && a.same b && sameMembers as bs
  | _, _ => false
end

instance : BEq Json := ⟨same⟩

mutual
/-- How deeply arrays and objects nest: nothing for a scalar. -/
def depth : Json → Nat
  | .arr items => 1 + depthItems items
  | .obj members => 1 + depthMembers members
  | _ => 0
/-- The deepest item of a list. -/
def depthItems : List Json → Nat
  | [] => 0
  | v :: rest => max v.depth (depthItems rest)
/-- The deepest member of a list. -/
def depthMembers : List (String × Json) → Nat
  | [] => 0
  | (_, v) :: rest => max v.depth (depthMembers rest)
end

end Json

end TreeWalk
