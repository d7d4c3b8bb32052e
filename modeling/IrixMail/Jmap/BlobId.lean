import IrixMail.Jmap.Value
import Mathlib.Tactic.IntervalCases

/-!
# Blob ids

A blob id is read as the text of a hash, unless a piece of two bytes ends inside a
character or starts with a plus sign, which the integer parser allows.
-/

namespace IrixMail.Jmap
open List

/-- Two digits for each byte, in lower case. -/
def hexText (bytes : Bytes) : List Char :=
  bytes.flatMap fun b => [Nat.digitChar (b.toNat / 16), Nat.digitChar (b.toNat % 16)]

def hexDigit (c : Char) : Option ℕ :=
  if c.isDigit then some (c.toNat - 48)
  else if 'a' ≤ c ∧ c ≤ 'f' then some (c.toNat - 87)
  else if 'A' ≤ c ∧ c ≤ 'F' then some (c.toNat - 55)
  else none

theorem hexDigit_eq_some {c : Char} {x : ℕ} :
    hexDigit c = some x ↔ x < 16 ∧ c.toLower = Nat.digitChar x := by
  have hle (a b : Char) : a ≤ b ↔ a.toNat ≤ b.toNat := Iff.rfl
  have hdigit : c.isDigit = true ↔ 48 ≤ c.toNat ∧ c.toNat ≤ 57 := by
    simp [Char.isDigit_iff_toNat]
  have hnum (n : ℕ) (hn : n < 16) : (Nat.digitChar n).toNat = if n < 10 then n + 48 else n + 87 := by
    interval_cases n <;> rfl
  have hchars : 'a'.toNat = 97 ∧ 'f'.toNat = 102 ∧ 'A'.toNat = 65 ∧ 'F'.toNat = 70 := by decide
  obtain ⟨ha, hf, hA, hF⟩ := hchars
  unfold hexDigit
  simp only [hle, hdigit, ha, hf, hA, hF]
  constructor
  · intro h
    split_ifs at h <;> cases h <;> refine ⟨by omega, Char.toNat_inj.1 ?_⟩ <;>
      rw [toNat_toLower, hnum _ (by omega)] <;> split_ifs <;> omega
  · rintro ⟨hx, hc⟩
    have hnat := congrArg Char.toNat hc
    rw [toNat_toLower, hnum x hx] at hnat
    split_ifs at hnat ⊢ <;> first | omega | exact congrArg some (by omega)

theorem hexOctet_eq_some {c d : Char} (hplus : c ≠ '+') {b : UInt8} : hexOctet c d = some b ↔
    c.toLower = Nat.digitChar (b.toNat / 16) ∧ d.toLower = Nat.digitChar (b.toNat % 16) := by
  have hoctet : hexOctet c d = (hexDigit c).bind fun high => (hexDigit d).map fun low =>
      UInt8.ofNat (16 * high + low) := if_neg hplus
  simp only [hoctet, Option.bind_eq_some_iff, Option.map_eq_some_iff, hexDigit_eq_some]
  have hb := b.toNat_lt
  constructor
  · rintro ⟨x, ⟨hx, hc⟩, y, ⟨hy, hd⟩, rfl⟩
    have hbyte : 16 * x + y < UInt8.size := by
      rw [UInt8.size]
      omega
    rw [UInt8.toNat_ofNat_of_lt' hbyte, hc, hd]
    exact ⟨congrArg _ (by omega), congrArg _ (by omega)⟩
  · rintro ⟨hc, hd⟩
    refine ⟨_, ⟨by omega, hc⟩, _, ⟨by omega, hd⟩, ?_⟩
    rw [Nat.div_add_mod, UInt8.ofNat_toNat]

/-- Two characters that `from_str_radix` takes for a number. -/
def IsNumber (c d : Char) : Prop := (c = '+' ∨ (hexDigit c).isSome) ∧ (hexDigit d).isSome

/-- No pair up to the first that is no number cuts a character; and there is such a pair if
one before it, or one that was read earlier, has a sign. -/
def Readable (signed : Prop) : List Char → Prop
  | [] => ¬ signed
  | [c] => c.utf8Size = 2 ∨ c.utf8Size = 1
  | c :: d :: rest => c.utf8Size = 2 ∨
      c.utf8Size = 1 ∧ d.utf8Size = 1 ∧ (IsNumber c d → Readable (signed ∨ c = '+') rest)

/-- The characters are read, as the bytes whose text they are. -/
def Reads (signed : Prop) (cs : List Char) : Prop :=
  ∃ result, hexOctets cs = .ok result ∧ ∀ bytes,
    result = some bytes ↔ ¬ signed ∧ cs.map Char.toLower = hexText bytes

theorem utf8Size_of_hexText {cs : List Char} {bytes : Bytes}
    (h : cs.map Char.toLower = hexText bytes) : ∀ c ∈ cs, c.utf8Size = 1 := by
  intro c hc
  have hmem : c.toLower ∈ hexText bytes := h ▸ mem_map_of_mem hc
  obtain ⟨b, -, hb⟩ := mem_flatMap.1 hmem
  have hlt := b.toNat_lt
  obtain ⟨x, hx, hdigit⟩ : ∃ x < 16, c.toLower = Nat.digitChar x := by
    rcases mem_pair.1 hb with heq | heq
    · exact ⟨_, by omega, heq⟩
    · exact ⟨_, by omega, heq⟩
  have hle : c.toNat ≤ 127 := by
    have hnat := congrArg Char.toNat hdigit
    rw [toNat_toLower] at hnat
    have hsmall : (Nat.digitChar x).toNat ≤ 102 := by interval_cases x <;> decide
    split_ifs at hnat <;> omega
  exact Char.utf8Size_eq_one_iff.2 hle

theorem hexOctet_isSome {c d : Char} : (hexOctet c d).isSome ↔ IsNumber c d := by
  have hoctet : hexOctet c d = if c = '+' then (hexDigit d).map UInt8.ofNat
      else (hexDigit c).bind fun high => (hexDigit d).map fun low => UInt8.ofNat (16 * high + low) :=
    rfl
  rw [hoctet, IsNumber]
  by_cases hplus : c = '+'
  · simp [hplus]
  · cases hexDigit c <;> simp [hplus]

theorem hexText_cons {c d : Char} {cs : List Char} {bytes : Bytes} :
    (c :: d :: cs).map Char.toLower = hexText bytes ↔ ∃ b rest, bytes = b :: rest ∧
      (c.toLower = Nat.digitChar (b.toNat / 16) ∧ d.toLower = Nat.digitChar (b.toNat % 16)) ∧
      cs.map Char.toLower = hexText rest := by
  cases bytes <;> simp [hexText, and_assoc]

theorem reads_iff_of_ok {signed : Prop} {cs : List Char} {result : Option Bytes}
    (h : hexOctets cs = .ok result) : Reads signed cs ↔
      ∀ bytes, result = some bytes ↔ ¬ signed ∧ cs.map Char.toLower = hexText bytes := by
  simp [Reads, h]

theorem not_reads_of_error {signed : Prop} {cs : List Char} {e : Error}
    (h : hexOctets cs = .error e) : ¬ Reads signed cs := by
  simp [Reads, h]

theorem reads_of_ne {signed : Prop} {cs : List Char} (h : hexOctets cs = .ok none)
    (hne : ∀ bytes, cs.map Char.toLower ≠ hexText bytes) : Reads signed cs :=
  (reads_iff_of_ok h).2 fun bytes => iff_of_false (by simp) fun htext => hne bytes htext.2

theorem reads_pair {signed : Prop} {c d : Char} {rest : List Char} {octet : UInt8}
    (hc : c.utf8Size = 1) (hd : d.utf8Size = 1) (hoctet : hexOctet c d = some octet) :
    Reads signed (c :: d :: rest) ↔ Reads (signed ∨ c = '+') rest := by
  cases hrest : hexOctets rest with
  | error e =>
    have hread : hexOctets (c :: d :: rest) = .error e := by simp [hexOctets, hc, hd, hoctet, hrest]
    exact iff_of_false (not_reads_of_error hread) (not_reads_of_error hrest)
  | ok result =>
    have hread : hexOctets (c :: d :: rest) = .ok (result.map (octet :: ·)) := by
      simp [hexOctets, hc, hd, hoctet, hrest]
    rw [reads_iff_of_ok hread, reads_iff_of_ok hrest]
    simp only [hexText_cons]
    by_cases hplus : c = '+'
    · cases result <;> simp [hplus]
    · simp only [← hexOctet_eq_some hplus, hoctet, hplus, or_false]
      refine ⟨fun h bytes => by simpa using h (octet :: bytes), fun h bytes => ?_⟩
      cases bytes with
      | nil => simp
      | cons b bytes =>
        have hcons : result.map (octet :: ·) = some (b :: bytes) ↔
            octet = b ∧ result = some bytes := by
          cases result <;> simp
        rw [hcons, h]
        simp [and_left_comm, eq_comm (a := octet)]

theorem reads_iff (signed : Prop) (cs : List Char) : Reads signed cs ↔ Readable signed cs := by
  fun_induction Readable signed cs with
  | case1 signed =>
    rw [reads_iff_of_ok rfl]
    refine ⟨fun h => ((h []).1 rfl).1, fun h bytes => ?_⟩
    cases bytes <;> simp [hexText, h]
  | case2 signed c =>
    have hne (bytes : Bytes) : [c].map Char.toLower ≠ hexText bytes := by
      cases bytes <;> simp [hexText]
    by_cases hc : c.utf8Size = 2 ∨ c.utf8Size = 1
    · refine iff_of_true (reads_of_ne ?_ hne) hc
      rcases hc with hc | hc <;> simp [hexOctets, hc]
    · refine iff_of_false (not_reads_of_error (e := .panicked) ?_) hc
      rw [not_or] at hc
      simp [hexOctets, hc]
  | case3 signed c d rest ih =>
    rw [← ih, ← hexOctet_isSome]
    by_cases h2 : c.utf8Size = 2
    · refine iff_of_true (reads_of_ne (by simp [hexOctets, h2]) fun bytes htext => ?_) (.inl h2)
      have hone := utf8Size_of_hexText htext c mem_cons_self
      omega
    by_cases hsizes : c.utf8Size = 1 ∧ d.utf8Size = 1
    · obtain ⟨hc, hd⟩ := hsizes
      simp only [hc, hd, true_and]
      cases hoctet : hexOctet c d with
      | some octet => simpa using reads_pair hc hd hoctet
      | none =>
        refine iff_of_true (reads_of_ne (by simp [hexOctets, hc, hd, hoctet]) fun bytes htext => ?_)
          (by simp)
        obtain ⟨b, rest', -, hdigits, -⟩ := hexText_cons.1 htext
        have hplus : c ≠ '+' := by
          rintro rfl
          simp at hdigits
        rw [← hexOctet_eq_some hplus, hoctet] at hdigits
        cases hdigits
    · refine iff_of_false (not_reads_of_error (e := .panicked) ?_) (by tauto)
      by_cases hc : c.utf8Size = 1
      · have hd : d.utf8Size ≠ 1 := fun hd => hsizes ⟨hc, hd⟩
        simp [hexOctets, hc, hd]
      · simp [hexOctets, h2, hc]

/-- Decoding returns, and it returns the bytes whose text was given, in either case. -/
def ReadsHex (blobId : String) : Prop :=
  ∃ result, decodeBlobId blobId = .ok result ∧ ∀ bytes,
    result = some bytes ↔ bytes ≠ [] ∧ blobId.toList.map Char.toLower = hexText bytes

theorem decodeBlobId_readsHex_iff (blobId : String) :
    ReadsHex blobId ↔ blobId.utf8ByteSize % 2 = 1 ∨ Readable False blobId.toList := by
  have hbytes {bytes : Bytes} (htext : blobId.toList.map Char.toLower = hexText bytes) :
      blobId.utf8ByteSize = 2 * bytes.length := by
    have hlength : blobId.toList.length = 2 * bytes.length := by
      rw [← length_map Char.toLower, htext, hexText, length_flatMap]
      simp only [length_cons, length_nil, map_const', sum_replicate_nat]
      omega
    rw [← hlength, ← congrArg String.utf8ByteSize blobId.ofList_toList, utf8ByteSize_ofList,
      map_congr_left (utf8Size_of_hexText htext), map_const', sum_replicate_nat, Nat.mul_one]
  unfold ReadsHex decodeBlobId
  split_ifs with hnone
  · have hnone : blobId = "" ∨ blobId.utf8ByteSize % 2 = 1 := by simpa using hnone
    refine iff_of_true ⟨none, rfl, fun bytes => iff_of_false (by simp) ?_⟩ ?_
    · rintro ⟨hne, htext⟩
      have hpos := length_pos_iff.2 hne
      have hsize := hbytes htext
      rcases hnone with rfl | hodd
      · exact absurd hsize (by simpa using hne)
      · omega
    · rcases hnone with rfl | hodd
      · exact .inr (by simp [Readable])
      · exact .inl hodd
  · obtain ⟨hne, heven⟩ : blobId ≠ "" ∧ blobId.utf8ByteSize % 2 ≠ 1 := by simpa using hnone
    rw [or_iff_right heven, ← reads_iff, Reads]
    refine exists_congr fun result => and_congr_right fun _ => forall_congr' fun bytes => ?_
    refine iff_congr Iff.rfl (and_congr_left fun htext => iff_of_true ?_ not_false)
    rintro rfl
    exact hne (by simpa [hexText] using htext)

/-- A plus sign stands for a digit, and a piece ends inside a character. -/
theorem decodeBlobId_misreads :
    decodeBlobId "+f" = .ok (some [15]) ∧ "+f".toList.map Char.toLower ≠ hexText [15] ∧
      decodeBlobId "aéb" = .error .panicked := by decide

end IrixMail.Jmap
