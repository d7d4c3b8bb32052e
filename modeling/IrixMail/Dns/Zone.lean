import IrixMail.Imap.Envelope

/-!
# TXT records in a zone file

The value of a TXT record is cut into character strings of at most 255 octets, each of which
is written in quotes.
-/

namespace IrixMail.Dns
open List Imap Library.Parens

def maxTxtChunk : ℕ := 255

def byteLength (chunk : List Char) : ℕ := (chunk.map Char.utf8Size).sum

/-- The loop of `split_chunks`. The slice of the value that is not cut off yet is `chunk`. -/
def splitFrom (limit : ℕ) (chunks : List (List Char)) (chunk : List Char) :
    List Char → List (List Char)
  | [] => if chunk ≠ [] ∨ chunks = [] then chunks ++ [chunk] else chunks
  | ch :: rest =>
    if byteLength chunk + ch.utf8Size > limit then splitFrom limit (chunks ++ [chunk]) [ch] rest
    else splitFrom limit chunks (chunk ++ [ch]) rest

def splitChunks (value : String) (limit : ℕ) : List String :=
  (splitFrom limit [] [] value.toList).map String.ofList

def escape (chunk : String) : String := replace '"' "\\\"" (replace '\\' "\\\\" chunk)

def txtValue (value : String) : String :=
  spaced ((splitChunks value maxTxtChunk).map fun chunk => "\"" ++ escape chunk ++ "\"")

theorem flatten_splitFrom (limit : ℕ) (chunks : List (List Char)) (chunk rest : List Char) :
    (splitFrom limit chunks chunk rest).flatten = chunks.flatten ++ chunk ++ rest := by
  fun_induction splitFrom limit chunks chunk rest with
  | case1 chunks chunk h => simp
  | case2 chunks chunk h => simp [not_not.1 (not_or.1 h).1]
  | case3 chunks chunk ch rest h ih | case4 chunks chunk ch rest h ih => simp [ih]

/-- An empty string is written only if nothing else is. -/
theorem mem_splitFrom {limit : ℕ} {chunks : List (List Char)} {chunk rest : List Char}
    (hlimit : 4 ≤ limit) (hchunks : ∀ c ∈ chunks, byteLength c ≤ limit ∧ c ≠ [])
    (hchunk : byteLength chunk ≤ limit) : ∀ c ∈ splitFrom limit chunks chunk rest,
      byteLength c ≤ limit ∧ (c = [] → splitFrom limit chunks chunk rest = [[]]) := by
  fun_induction splitFrom limit chunks chunk rest with
  | case1 chunks chunk h =>
    intro c hc
    rcases mem_append.1 hc with hc | hc
    · exact ⟨(hchunks c hc).1, fun hnil => absurd hnil (hchunks c hc).2⟩
    · obtain rfl := mem_singleton.1 hc
      exact ⟨hchunk, fun hnil => by simp_all⟩
  | case2 chunks chunk h =>
    intro c hc
    exact ⟨(hchunks c hc).1, fun hnil => absurd hnil (hchunks c hc).2⟩
  | case3 chunks chunk ch rest hfull ih =>
    have hsize := ch.utf8Size_le_four
    refine ih (forall_mem_append.2 ⟨hchunks, forall_mem_singleton.2 ⟨hchunk, ?_⟩⟩) ?_
    · rintro rfl
      simp only [byteLength, map_nil, sum_nil] at hfull
      omega
    · simp only [byteLength, map_cons, map_nil, sum_singleton]
      omega
  | case4 chunks chunk ch rest hroom ih =>
    refine ih hchunks ?_
    simp only [byteLength, map_append, map_cons, map_nil, sum_append, sum_singleton] at hroom ⊢
    omega

/-- The strings of the text, read back, are the pieces of the value in order. -/
theorem txtValue_read (value : String) : ∃ chunks : List (List Char),
    parse (txtValue value).toList = some (chunks.map .quoted) ∧ chunks.flatten = value.toList ∧
      ∀ chunk ∈ chunks, byteLength chunk ≤ maxTxtChunk ∧ (chunk = [] → value = "") := by
  have hflatten := flatten_splitFrom maxTxtChunk [] [] value.toList
  refine ⟨splitFrom maxTxtChunk [] [] value.toList, parse_of_spells ?_, hflatten, ?_⟩
  · have hwrites := writes_spaced_map qstring _ writes_qstring (splitChunks value maxTxtChunk)
    simp only [splitChunks, ← map_eq_flatMap, map_map, Function.comp_def, String.toList_ofList]
      at hwrites
    rwa [txtValue, splitChunks, map_map]
  · intro chunk hchunk
    obtain ⟨hsize, hnil⟩ := mem_splitFrom (by decide) (by simp) (by decide) chunk hchunk
    refine ⟨hsize, fun h => ?_⟩
    rw [hnil h] at hflatten
    exact String.toList_eq_nil_iff.1 hflatten.symm

end IrixMail.Dns
