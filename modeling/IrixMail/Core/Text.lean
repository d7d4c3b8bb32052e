import IrixMail.Core.Error

/-! The operations on texts that the source takes from its standard library. -/

namespace IrixMail
open List

def isWhitespace (c : Char) : Bool :=
  let n := c.toNat
  (9 ≤ n && n ≤ 13) || n = 0x20 || n = 0x85 || n = 0xa0 || n = 0x1680 ||
    (0x2000 ≤ n && n ≤ 0x200a) || n = 0x2028 || n = 0x2029 || n = 0x202f || n = 0x205f || n = 0x3000

def trimStart (p : Char → Bool) (s : List Char) : List Char := s.dropWhile p
def trimEnd (p : Char → Bool) (s : List Char) : List Char := (s.reverse.dropWhile p).reverse

def trim (s : String) : String :=
  String.ofList (trimEnd isWhitespace (trimStart isWhitespace s.toList))

def toAsciiLowercase (s : String) : String := String.ofList (s.toList.map Char.toLower)

theorem toNat_toLower (c : Char) :
    c.toLower.toNat = if 65 ≤ c.toNat ∧ c.toNat ≤ 90 then c.toNat + 32 else c.toNat := by
  unfold Char.toLower
  have hA : 'A'.val.toNat = 65 := rfl
  have hZ : 'Z'.val.toNat = 90 := rfl
  have hshift : ('a'.val - 'A'.val).toNat = 32 := rfl
  have hc : c.toNat = c.val.toNat := rfl
  simp only [ge_iff_le, UInt32.le_iff_toNat_le, hA, hZ, hc]
  split
  next h =>
    change (c.val + ('a'.val - 'A'.val)).toNat = _
    rw [UInt32.toNat_add]
    omega
  next h => rfl

def eqIgnoreAsciiCase (s t : String) : Bool := toAsciiLowercase s == toAsciiLowercase t

/-- `rsplit_once`: the parts before and after the last occurrence. -/
def rsplitOnce (c : Char) (s : String) : Option (String × String) :=
  let tail := s.toList.reverse.takeWhile (· != c)
  if tail.length = s.toList.length then none
  else some (String.ofList (s.toList.take (s.toList.length - tail.length - 1)),
    String.ofList tail.reverse)

theorem toList_of_rsplitOnce {c : Char} {s before after : String}
    (h : rsplitOnce c s = some (before, after)) :
    s.toList = before.toList ++ c :: after.toList := by
  unfold rsplitOnce at h
  dsimp only at h
  split_ifs at h with hlen
  obtain ⟨rfl, rfl⟩ := Prod.mk.inj (Option.some.inj h)
  rw [String.toList_ofList, String.toList_ofList]
  have hsplit := takeWhile_append_dropWhile (p := (· != c)) (l := s.toList.reverse)
  generalize htail : s.toList.reverse.takeWhile (· != c) = tail at hsplit hlen ⊢
  cases hrest : s.toList.reverse.dropWhile (· != c) with
  | nil =>
    rw [hrest, append_nil] at hsplit
    rw [hsplit, length_reverse] at hlen
    exact absurd rfl hlen
  | cons x rest =>
    have hx : x = c := by
      have hhead := head?_dropWhile_not (· != c) s.toList.reverse
      rw [hrest] at hhead
      simpa using hhead
    subst hx
    have hlist : s.toList = rest.reverse ++ x :: tail.reverse := by
      rw [← reverse_reverse s.toList, ← hsplit, hrest]
      simp
    have hbefore : s.toList.length - tail.length - 1 = rest.reverse.length := by
      rw [hlist]
      simp only [length_append, length_cons, length_reverse]
      omega
    rw [hbefore, hlist, take_left]

def utf8Bytes (s : String) : Bytes := s.toUTF8.toList

def fromUtf8 (bytes : Bytes) : Option String := String.fromUTF8? ⟨bytes.toArray⟩

theorem utf8ByteSize_ofList (cs : List Char) :
    (String.ofList cs).utf8ByteSize = (cs.map Char.utf8Size).sum := by
  induction cs with
  | nil => rfl
  | cons c cs ih =>
    have hcons : String.ofList (c :: cs) = String.singleton c ++ String.ofList cs := by simp
    rw [hcons, String.utf8ByteSize_append, ih]
    simp

/-- The first `n` bytes of a text, unless they end inside a character or past the end. -/
def bytePrefix : ℕ → List Char → Option (List Char)
  | 0, _ => some []
  | _ + 1, [] => none
  | n + 1, c :: cs =>
    if c.utf8Size ≤ n + 1 then (bytePrefix (n + 1 - c.utf8Size) cs).map (c :: ·) else none

def padded (width n : ℕ) : String :=
  let digits := toString n
  String.ofList (List.replicate (width - digits.length) '0') ++ digits

/-- A number in lower-case hexadecimal digits, at least `width` of them. -/
def hexPadded (width n : ℕ) : String :=
  let digits := Nat.toDigits 16 n
  String.ofList (List.replicate (width - digits.length) '0' ++ digits)

def asI64 (x : ℕ) : ℤ := if x < 2 ^ 63 then x else (x : ℤ) - 2 ^ 64

def saturatingAdd (x y : ℕ) : ℕ := min (x + y) (2 ^ 64 - 1)

end IrixMail
