import TextrpBriij.Api.Errors
import TextrpBriij.Foundation.Fallible
import TextrpBriij.Python.Text

/-! # Operations on decoded JSON values

What Python does with a value of any JSON type where the server code reads, indexes, iterates,
hashes or converts it, with the exception that it raises otherwise. The integers that `int`
reads from a string are a parameter; every result holds for any such reading.
-/
namespace TextrpBriij.Python
open Api List

abbrev Fields := List (String × Json)

def Json.isStr (v : Json) (s : String) : Bool :=
  match v with
  | .str t => t == s
  | _ => false

def Json.isNone : Json → Bool
  | .null => true
  | _ => false

def Json.truthy : Json → Bool
  | .null => false
  | .bool b => b
  | .int n => n != 0
  | .float q => q != 0
  | .str s => s != ""
  | .arr items => !items.isEmpty
  | .obj fields => !fields.isEmpty

/-- `value.get(key, default)` -/
def Json.get (v : Json) (key : String) (default : Json) : Except Error Json :=
  match v with
  | .obj fields => pure ((fields.lookup key).getD default)
  | _ => throw (.raised "AttributeError")

def Json.items : Json → Except Error Fields
  | .obj fields => pure fields
  | _ => throw (.raised "AttributeError")

theorem Json.items_eq_ok {v : Json} {fields : Fields} : v.items = .ok fields ↔ v = .obj fields := by
  cases v <;> simp [Json.items]

/-- `fields[key]` -/
def fieldAt (fields : Fields) (key : String) : Except Error Json :=
  match fields.lookup key with
  | some v => pure v
  | none => throw (.raised "KeyError")

def hasField (fields : Fields) (key : String) : Bool := (fields.lookup key).isSome

/-- `value[key]` for a string. Lists and strings have no string indices. -/
def Json.at (v : Json) (key : String) : Except Error Json :=
  match v with
  | .obj fields => fieldAt fields key
  | _ => throw (.raised "TypeError")

def Json.elements : Json → Except Error (List Json)
  | .obj fields => pure (fields.map fun f => .str f.1)
  | .arr items => pure items
  | .str s => pure (s.toList.map fun c => .str (String.ofList [c]))
  | _ => throw (.raised "TypeError")

def Json.hashable : Json → Bool
  | .arr _ => false
  | .obj _ => false
  | _ => true

def Json.number : Json → Option ℚ
  | .bool b => some (if b then 1 else 0)
  | .int n => some n
  | .float q => some q
  | _ => none

/-- `==` for values that have a hash. Numbers are compared by value. -/
def Json.sameKey (v w : Json) : Bool :=
  match v,w with
  | .null,.null => true
  | .str s,.str t => s == t
  | v,w =>
    match v.number,w.number with
    | some p,some q => p == q
    | _,_ => false

/-- `set(values)`, with the first of the values that are equal. -/
def hashSet (vs : List Json) : Except Error (List Json) :=
  if vs.all Json.hashable then pure (vs.foldl (fun set v => if set.any (·.sameKey v) then set
    else set ++ [v]) [])
  else throw (.raised "TypeError")

theorem Json.sameKey_str {v : Json} {s : String} : v.sameKey (.str s) = true ↔ v = .str s := by
  cases v <;> simp [Json.sameKey,Json.number]

theorem str_mem_hashSet {vs set : List Json} (h : hashSet vs = .ok set) {s : String}
    (hs : .str s ∈ vs) : .str s ∈ set := by
  unfold hashSet at h
  split at h
  · cases h
    revert hs
    apply Fallible.foldl_spec fun (seen set : List Json) => Json.str s ∈ seen → Json.str s ∈ set
    · simp
    · intro seen v _ set _ ih hmem
      rcases mem_append.mp hmem with hseen | hlast
      · split
        · exact ih hseen
        · exact mem_append_left _ (ih hseen)
      · obtain rfl := mem_singleton.mp hlast
        split
        · rename_i hany
          obtain ⟨w,hw,hsame⟩ := any_eq_true.mp hany
          rwa [Json.sameKey_str.mp hsame] at hw
        · exact mem_append_right _ (mem_singleton_self _)
  · cases h

/-- `key in value` for a key that has a hash. -/
def Json.contains (v key : Json) : Except Error Bool :=
  match v,key with
  | .obj fields,.str s => pure (hasField fields s)
  | .obj _,_ => pure false
  | .arr items,key => pure (items.any (·.sameKey key))
  | .str t,.str s => pure (isSubstring s t)
  | _,_ => throw (.raised "TypeError")

/-- An index into a list counts from the end when it is negative. -/
def itemAt (items : List Json) (n : ℤ) : Except Error Json :=
  match items[(if n < 0 then n + items.length else n).toNat]? with
  | some v => if -(items.length : ℤ) ≤ n then pure v else throw (.raised "IndexError")
  | none => throw (.raised "IndexError")

/-- `value[key]` for a key that is in the value. -/
def Json.item (v key : Json) : Except Error Json :=
  match v,key with
  | .obj fields,.str s => fieldAt fields s
  | .obj _,_ => throw (.raised "KeyError")
  | .arr items,.int n => itemAt items n
  | .arr items,.bool b => itemAt items (if b then 1 else 0)
  | _,_ => throw (.raised "TypeError")

/-- `int(value)`, where `intOfString` reads a string and is `none` for a `ValueError`. A float
is cut towards zero. -/
def Json.toInt (intOfString : String → Option ℤ) : Json → Except Error ℤ
  | .int n => pure n
  | .bool b => pure (if b then 1 else 0)
  | .float q => pure (q.num.tdiv q.den)
  | .str s =>
    match intOfString s with
    | some n => pure n
    | none => throw (.raised "ValueError")
  | _ => throw (.raised "TypeError")

end TextrpBriij.Python
