import IrixMail.Core.Text

/-! JSON values, and the numbers and identifiers that JMAP writes as texts. -/

namespace IrixMail.Jmap

/-- The fields of an object stand in the order of the map that holds them. -/
inductive Value
  | null
  | bool (b : Bool)
  | number (n : ℤ)
  | str (s : String)
  | array (items : List Value)
  | object (fields : List (String × Value))

abbrev Fields := List (String × Value)

namespace Value

def asBool : Value → Option Bool
  | bool b => some b
  | _ => none

def asStr : Value → Option String
  | str s => some s
  | _ => none

def asArray : Value → Option (List Value)
  | array items => some items
  | _ => none

def asObject : Value → Option Fields
  | object fields => some fields
  | _ => none

def get (value : Value) (key : String) : Option Value :=
  value.asObject.bind (List.lookup key)

end Value

/-- `insert` of a map, whose names ascend: a field of the same name is replaced. -/
def Fields.insert (key : String) (value : Value) : Fields → Fields
  | [] => [(key, value)]
  | field :: fields =>
    if key < field.1 then (key, value) :: field :: fields
    else if key = field.1 then (key, value) :: fields
    else field :: Fields.insert key value fields

theorem Fields.lookup_cons (key name : String) (value : Value) (fields : Fields) :
    List.lookup key ((name, value) :: fields) =
      if key = name then some value else fields.lookup key := by
  rw [List.lookup_cons]
  by_cases h : key = name
  · rw [if_pos h, beq_iff_eq.2 h]
  · rw [if_neg h, beq_eq_false_iff_ne.2 h]

theorem Fields.lookup_insert (key key' : String) (value : Value) (fields : Fields) :
    (Fields.insert key value fields).lookup key' =
      if key' = key then some value else fields.lookup key' := by
  induction fields with
  | nil => exact Fields.lookup_cons _ _ _ _
  | cons field fields ih =>
    obtain ⟨name, old⟩ := field
    unfold Fields.insert
    dsimp only
    split
    · exact Fields.lookup_cons _ _ _ _
    split
    next heq =>
      subst heq
      rw [Fields.lookup_cons, Fields.lookup_cons]
      split <;> rfl
    next hne =>
      rw [Fields.lookup_cons, Fields.lookup_cons, ih]
      by_cases hname : key' = name
      · have hkey : key' ≠ key := fun h => hne (h.symm.trans hname)
        rw [if_pos hname, if_pos hname, if_neg hkey]
      · rw [if_neg hname, if_neg hname]

def Fields.trueKeys (fields : Fields) : List String :=
  (fields.filter fun field => field.2.asBool == some true).map Prod.fst

/-- `parse` of an unsigned number below `bound`: a plus sign may stand before the digits. -/
def parseUnsigned (bound : ℕ) (s : String) : Option ℕ :=
  let digits := match s.toList with
    | '+' :: rest => rest
    | cs => cs
  let value := Nat.ofDigitChars 10 digits 0
  if digits ≠ [] ∧ digits.all Char.isDigit ∧ value < bound then some value else none

def parseU32 : String → Option ℕ := parseUnsigned (2 ^ 32)
def parseU8 : String → Option ℕ := parseUnsigned (2 ^ 8)

theorem parseUnsigned_toString (bound n : ℕ) :
    parseUnsigned bound (toString n) = if n < bound then some n else none := by
  have hlist : (toString n).toList = Nat.toDigits 10 n := by
    rw [Nat.toString_eq_ofList_toDigits, String.toList_ofList]
  have hdigits : ∀ c ∈ Nat.toDigits 10 n, c.isDigit = true :=
    fun c hc => Nat.isDigit_of_mem_toDigits (by decide) (by decide) hc
  have hplain : (match Nat.toDigits 10 n with
      | '+' :: rest => rest
      | cs => cs) = Nat.toDigits 10 n := by
    split
    next rest heq =>
      have := hdigits '+' (heq ▸ List.mem_cons_self)
      simp at this
    next => rfl
  have hall : (Nat.toDigits 10 n).all Char.isDigit = true := by simpa using hdigits
  unfold parseUnsigned
  dsimp only
  rw [hlist, hplain, Nat.ofDigitChars_ten_toDigits]
  simp only [ne_eq, Nat.toDigits_ne_nil, not_false_eq_true, hall, true_and]

theorem eq_of_parseU32_toString {m n : ℕ} (h : parseU32 (toString m) = some n) : m = n := by
  rw [parseU32, parseUnsigned_toString] at h
  split at h
  · exact Option.some.inj h
  · cases h

/-! ## Blob ids -/

/-- The octet that two characters spell. `from_str_radix` takes a plus sign, too. -/
def hexOctet (c d : Char) : Option UInt8 :=
  let digit (c : Char) : Option ℕ :=
    if c.isDigit then some (c.toNat - 48)
    else if 'a' ≤ c ∧ c ≤ 'f' then some (c.toNat - 87)
    else if 'A' ≤ c ∧ c ≤ 'F' then some (c.toNat - 55)
    else none
  if c = '+' then (digit d).map UInt8.ofNat
  else (digit c).bind fun high => (digit d).map fun low => UInt8.ofNat (16 * high + low)

/-- The octets of a blob id, two bytes of text for each. A slice that cuts a character
panics. -/
def hexOctets : List Char → Except Error (Option Bytes)
  | [] => .ok (some [])
  | c :: rest =>
    if c.utf8Size = 2 then .ok none
    else if c.utf8Size ≠ 1 then .error .panicked
    else
      match rest with
      | [] => .ok none
      | d :: rest =>
        if d.utf8Size ≠ 1 then .error .panicked
        else
          match hexOctet c d with
          | none => .ok none
          | some octet =>
            match hexOctets rest with
            | .ok octets => .ok (octets.map (octet :: ·))
            | .error e => .error e

def decodeBlobId (blobId : String) : Except Error (Option Bytes) :=
  if blobId.isEmpty || blobId.utf8ByteSize % 2 ≠ 0 then .ok none else hexOctets blobId.toList

end IrixMail.Jmap
