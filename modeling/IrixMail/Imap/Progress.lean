import IrixMail.Imap.Parser

/-!
# Progress of the IMAP tokenizer

A loop of `tokens` or of `list` calls `token` where it has skipped the spaces. The call
takes an octet unless it stands at a tab, and from there no loop comes to an end.
`meetsTab` says of an input whether the tokenizer gets to such a tab.
-/

namespace IrixMail.Imap.Parsing
open List

/-- Whether a tab stands outside quoted strings, before a brace and before a parenthesis
that closes nothing: at these the tokenizer stops. -/
def meetsTab : Bool → ℕ → Bytes → Bool
  | _, _, [] => false
  | true, depth, b :: rest =>
    if b = quote then meetsTab false depth rest
    else if b = backslash then
      match rest with
      | [] => false
      | _ :: rest => meetsTab true depth rest
    else meetsTab true depth rest
  | false, depth, b :: rest =>
    if b = tab then true
    else if b = quote then meetsTab true depth rest
    else if b = lbrace then false
    else if b = lparen then meetsTab false (depth + 1) rest
    else if b = rparen then
      match depth with
      | 0 => false
      | depth + 1 => meetsTab false depth rest
    else meetsTab false depth rest

variable (d : Decoding)

/-- `token` is called on `place` in a run of the loop of `tokens`, or of the loop of
`list` when `inside`, over `input`. -/
inductive Called : Bool → Bytes → Bytes → Prop
  | here {inside : Bool} {input rest : Bytes} {b : UInt8} (hskip : skipSpaces input = b :: rest)
      (hb : inside = true → b ≠ rparen) : Called inside input (b :: rest)
  | inner {inside : Bool} {input rest place : Bytes} (hskip : skipSpaces input = lparen :: rest)
      (h : Called true rest place) : Called inside input place
  | later {inside : Bool} {input rest left place : Bytes} {b : UInt8} {n : ℕ} {t : Token}
      (hskip : skipSpaces input = b :: rest) (hb : inside = true → b ≠ rparen)
      (htoken : token d n (b :: rest) = .ok (t, left)) (h : Called inside left place) :
      Called inside input place

/-- Every call of `token` that succeeds in a run over `input` leaves less of it. -/
def Progresses (input : Bytes) : Prop :=
  ∀ place, Called d false input place → ∀ n t left, token d n place = .ok (t, left) →
    left.length < place.length

def Terminates (input : Bytes) : Prop := ∃ n, tokens d n input ≠ .error .endless

def argsInput (line : Bytes) : Option Bytes :=
  let line := stripCrlf line
  let tag := line.takeWhile (!isSpace ·)
  let afterTag := skipSpaces (line.drop tag.length)
  let name := afterTag.takeWhile (!isSpace ·)
  if line = [] ∨ tag.length = line.length ∨ tag = [] ∨ afterTag = [] then none
  else some (afterTag.drop (name.length + 1))

variable {b : UInt8} {input rest : Bytes}

theorem length_lt_of_token {n : ℕ} {t : Token}
    (h : token d n (b :: input) = .ok (t, rest)) (htab : b ≠ tab) (hspace : b ≠ space) :
    rest.length < (b :: input).length := by
  obtain ⟨used, hused, hkind⟩ := token_used d n b input h
  have hsome : used ≠ [] := by
    rcases hkind with hlast | hlast | ⟨rfl, hliteral⟩ | ⟨-, hne⟩
    · exact ne_nil_of_mem (mem_of_getLast? hlast)
    · exact ne_nil_of_mem (mem_of_getLast? hlast)
    · rintro rfl
      rw [(literal_ok hliteral).1] at hused
      cases hused
    · exact hne htab hspace
  rw [← hused, length_append]
  exact Nat.lt_add_of_pos_left (length_pos_iff.2 hsome)

theorem quotedFrom_ne_endless (buf input : Bytes) : quotedFrom d buf input ≠ .error .endless := by
  fun_induction quotedFrom d buf input <;> simp_all [bad]

theorem literal_ne_endless (input : Bytes) : literal input ≠ .error .endless := by
  unfold literal
  dsimp only
  split_ifs <;> simp [bad]

theorem not_space_of_skipSpaces (h : skipSpaces input = b :: rest) : b ≠ space := by
  have hhead := head?_dropWhile_not isSpace input
  rw [show input.dropWhile isSpace = b :: rest from h] at hhead
  simpa [isSpace] using hhead

theorem meetsTab_cons (depth : ℕ) (b : UInt8) (rest : Bytes) :
    meetsTab false depth (b :: rest) =
      if b = tab then true
      else if b = quote then meetsTab true depth rest
      else if b = lbrace then false
      else if b = lparen then meetsTab false (depth + 1) rest
      else if b = rparen then
        match depth with
        | 0 => false
        | depth + 1 => meetsTab false depth rest
      else meetsTab false depth rest := by
  rw [meetsTab.eq_def]

theorem meetsTab_quoted (depth : ℕ) (b : UInt8) (rest : Bytes) :
    meetsTab true depth (b :: rest) =
      if b = quote then meetsTab false depth rest
      else if b = backslash then
        match rest with
        | [] => false
        | _ :: rest => meetsTab true depth rest
      else meetsTab true depth rest := by
  cases rest <;> rfl

section
variable {d}

theorem meetsTab_dropWhile {p : UInt8 → Bool} (depth : ℕ) (input : Bytes)
    (hp : ∀ b, p b = true → b ≠ tab ∧ b ≠ quote ∧ b ≠ lbrace ∧ b ≠ lparen ∧ b ≠ rparen) :
    meetsTab false depth (input.dropWhile p) = meetsTab false depth input := by
  induction input with
  | nil => rfl
  | cons b rest ih =>
    by_cases hb : p b = true
    · obtain ⟨htab, hquote, hbrace, hopen, hclose⟩ := hp b hb
      rw [dropWhile_cons_of_pos hb, ih, meetsTab_cons, if_neg htab, if_neg hquote, if_neg hbrace,
        if_neg hopen, if_neg hclose]
    · rw [dropWhile_cons_of_neg hb]

theorem meetsTab_skipSpaces (depth : ℕ) (input : Bytes) :
    meetsTab false depth (skipSpaces input) = meetsTab false depth input := by
  refine meetsTab_dropWhile depth input fun b hb => ?_
  obtain rfl : b = space := by simpa [isSpace] using hb
  decide

/-- What a part of the tokenizer that reads up to `depth` leaves to meet. -/
def Agrees {α : Type} (m : Bool) (depth : ℕ) : Scan (α × Bytes) → Prop
  | .ok (_, rest) => meetsTab false depth rest = m
  | .error (.error _) => m = false
  | .error .endless => True

theorem Agrees.bind {α β : Type} {m : Bool} {depth depth' : ℕ} {x : Scan (α × Bytes)}
    {f : α × Bytes → Scan (β × Bytes)} (h : Agrees m depth x)
    (hf : ∀ first, meetsTab false depth first.2 = m → Agrees m depth' (f first)) :
    Agrees m depth' (x >>= f) := by
  cases x with
  | ok first => exact hf first h
  | error e => cases e <;> exact h

theorem quotedFrom_agrees (depth : ℕ) (buf input : Bytes) :
    Agrees (meetsTab true depth input) depth (quotedFrom d buf input) := by
  fun_induction quotedFrom d buf input with
  | case1 => rfl
  | case2 buf tail => simp [Agrees, meetsTab_quoted]
  | case3 => simp [Agrees, meetsTab_quoted, bad, *]
  | case4 buf escaped tail hne ih => simpa [meetsTab_quoted, hne] using ih
  | case5 buf b tail hb hs ih => simpa [meetsTab_quoted, hb, hs] using ih

mutual

theorem token_agrees (n : ℕ) (b : UInt8) (input : Bytes) (depth : ℕ)
    (hb : b = rparen → depth = 0) :
    Agrees (meetsTab false depth (b :: input)) depth (token d n (b :: input)) := by
  cases n with
  | zero => trivial
  | succ n =>
    rw [token]
    split_ifs with hparen hquote hbrace hclose
    · subst hparen
      have hmeets : meetsTab false depth (lparen :: input) = meetsTab false (depth + 1) input := by
        rw [meetsTab_cons]
        simp [lparen, tab, quote, lbrace]
      rw [hmeets]
      have hlist := listItems_agrees n input depth
      revert hlist
      cases listItems d n input with
      | ok left => exact id
      | error e => cases e <;> exact id
    · subst hquote
      have hmeets : meetsTab false depth (quote :: input) = meetsTab true depth input := by
        rw [meetsTab_cons]
        simp [tab, quote]
      rw [hmeets]
      exact quotedFrom_agrees depth [] input
    · subst hbrace
      have hmeets : meetsTab false depth (lbrace :: input) = false := by
        rw [meetsTab_cons]
        simp [tab, quote, lbrace]
      rw [hmeets]
      cases h : literal input with
      | ok first =>
        obtain ⟨t, left⟩ := first
        obtain rfl := (literal_ok h).1
        rfl
      | error e =>
        cases e with
        | error e => rfl
        | endless => trivial
    · obtain rfl := hb hclose
      subst hclose
      rfl
    · change meetsTab false depth ((b :: input).dropWhile isAtomByte) = _
      refine meetsTab_dropWhile depth (b :: input) fun b hb => ?_
      simp only [isAtomByte, decide_eq_true_eq] at hb
      exact ⟨hb.2.1, hb.2.2.2.2.1, hb.2.2.2.2.2, hb.2.2.1, hb.2.2.2.1⟩

theorem listItems_agrees (n : ℕ) (input : Bytes) (depth : ℕ) :
    Agrees (meetsTab false (depth + 1) input) depth (listItems d n input) := by
  cases n with
  | zero => trivial
  | succ n =>
    rw [listItems, ← meetsTab_skipSpaces]
    cases skipSpaces input with
    | nil => rfl
    | cons b tail =>
      dsimp only
      split_ifs with hb
      · subst hb
        rfl
      · refine (token_agrees n b tail (depth + 1) fun h => absurd h hb).bind fun first hfirst => ?_
        rw [← hfirst]
        exact (listItems_agrees n first.2 depth).bind fun _ => id

end

variable {input : Bytes}

theorem tokens_endless (n : ℕ) (h : meetsTab false 0 input = true) :
    tokens d n input = .error .endless := by
  induction n generalizing input with
  | zero => rfl
  | succ n ih =>
    rw [← meetsTab_skipSpaces] at h
    rw [tokens]
    cases hskip : skipSpaces input with
    | nil =>
      rw [hskip] at h
      cases h
    | cons b tail =>
      rw [hskip] at h
      have hfirst := token_agrees (d := d) n b tail 0 fun _ => rfl
      rw [h] at hfirst
      dsimp only
      cases htoken : token d n (b :: tail) with
      | error e =>
        rw [htoken] at hfirst
        cases e with
        | error e => cases hfirst
        | endless => rfl
      | ok first =>
        rw [htoken] at hfirst
        simp only [bind, Except.bind, ih (show meetsTab false 0 first.2 = true from hfirst)]

theorem Called.not_tab {inside : Bool} {place : Bytes} (h : Called d inside input place)
    (depth : ℕ) (hinside : inside = decide (0 < depth))
    (hmeets : meetsTab false depth input = false) :
    ∃ b rest, place = b :: rest ∧ b ≠ tab ∧ b ≠ space := by
  have hclose {b : UInt8} {inside : Bool} {depth : ℕ} (hinside : inside = decide (0 < depth))
      (hb : inside = true → b ≠ rparen) : b = rparen → depth = 0 := by
    intro h
    by_contra hdepth
    exact hb (by simp [hinside]; omega) h
  induction h generalizing depth with
  | here hskip hb =>
    rw [← meetsTab_skipSpaces, hskip] at hmeets
    refine ⟨_, _, rfl, ?_, not_space_of_skipSpaces hskip⟩
    rintro rfl
    simp [meetsTab_cons] at hmeets
  | inner hskip h ih =>
    rw [← meetsTab_skipSpaces, hskip, meetsTab_cons] at hmeets
    exact ih (depth + 1) (by simp) (by simpa [lparen, tab, quote, lbrace] using hmeets)
  | @later _ _ rest _ _ b n _ hskip hb htoken h ih =>
    rw [← meetsTab_skipSpaces, hskip] at hmeets
    have hfirst := token_agrees (d := d) n b rest depth (hclose hinside hb)
    rw [htoken, hmeets] at hfirst
    exact ih depth hinside hfirst

/-- One round of a loop that does not end: the token does not, or it stands at a tab, or
the rounds after it do not end. -/
theorem called_of_round {β γ : Type} {inside : Bool} {n : ℕ} {b : UInt8} {tail : Bytes}
    {f : Bytes → Scan β} {g : Token → β → γ} (hskip : skipSpaces input = b :: tail)
    (hb : inside = true → b ≠ rparen) (h : (token d n (b :: tail) >>= fun first =>
      f first.2 >>= fun x => pure (g first.1 x)) = .error .endless)
    (hinner : token d n (b :: tail) = .error .endless →
      b = lparen ∧ ∃ rest, Called d true tail (tab :: rest))
    (hlater : ∀ left, f left = .error .endless → left.length < (b :: tail).length →
      ∃ rest, Called d inside left (tab :: rest)) :
    ∃ rest, Called d inside input (tab :: rest) := by
  cases hfirst : token d n (b :: tail) with
  | error e =>
    rw [hfirst] at h
    cases h
    obtain ⟨rfl, rest, hcalled⟩ := hinner hfirst
    exact ⟨rest, .inner hskip hcalled⟩
  | ok first =>
    by_cases htab : b = tab
    · subst htab
      exact ⟨tail, .here hskip hb⟩
    · rw [hfirst] at h
      change (f first.2 >>= fun x => pure (g first.1 x)) = _ at h
      have hless := length_lt_of_token d hfirst htab (not_space_of_skipSpaces hskip)
      have hrest : f first.2 = .error .endless := by
        cases hothers : f first.2 with
        | error e =>
          rw [hothers] at h
          cases h
          rfl
        | ok others =>
          rw [hothers] at h
          cases h
      obtain ⟨rest, hcalled⟩ := hlater first.2 hrest hless
      exact ⟨rest, .later hskip hb hfirst hcalled⟩

mutual

theorem called_of_token_endless (n : ℕ) (b : UInt8) (input : Bytes)
    (h : token d n (b :: input) = .error .endless) (hn : 2 * (b :: input).length ≤ n) :
    b = lparen ∧ ∃ rest, Called d true input (tab :: rest) := by
  cases n with
  | zero => simp at hn
  | succ n =>
    rw [token] at h
    split_ifs at h with hparen
    · refine ⟨hparen, called_of_listItems_endless n input ?_ (by
        simp only [length_cons] at hn
        omega)⟩
      split at h
      next => cases h
      next e he =>
        cases h
        exact he
    · exact absurd h (quotedFrom_ne_endless d [] input)
    · exact absurd h (literal_ne_endless input)
    · cases h

theorem called_of_listItems_endless (n : ℕ) (input : Bytes)
    (h : listItems d n input = .error .endless) (hn : 2 * input.length + 1 ≤ n) :
    ∃ rest, Called d true input (tab :: rest) := by
  cases n with
  | zero => simp at hn
  | succ n =>
    have hlen := (skipSpaces_suffix input).length_le
    rw [listItems] at h
    cases hskip : skipSpaces input with
    | nil =>
      rw [hskip] at h
      cases h
    | cons b tail =>
      rw [hskip] at h hlen
      dsimp only at h
      split_ifs at h with hclose
      exact called_of_round (g := fun item others => (item :: others.1, others.2)) hskip
        (fun _ => hclose) h (fun hfirst => called_of_token_endless n b tail hfirst (by omega))
        fun left hrest _ => called_of_listItems_endless n left hrest (by omega)

end

theorem called_of_tokens_endless (n : ℕ) (input : Bytes)
    (h : tokens d n input = .error .endless) (hn : 2 * input.length + 1 ≤ n) :
    ∃ rest, Called d false input (tab :: rest) := by
  induction n generalizing input with
  | zero => simp at hn
  | succ n ih =>
    have hlen := (skipSpaces_suffix input).length_le
    rw [tokens] at h
    cases hskip : skipSpaces input with
    | nil =>
      rw [hskip] at h
      cases h
    | cons b tail =>
      rw [hskip] at h hlen
      exact called_of_round hskip (by simp) h
        (fun hfirst => called_of_token_endless n b tail hfirst (by omega))
        fun left hrest _ => ih left hrest (by omega)

/-- The rounds of `tokenize` are enough: only a tab that is met keeps it from coming to an
end. -/
theorem tokenize_endless_iff :
    tokenize d input = .error .endless ↔ meetsTab false 0 input = true := by
  constructor
  · intro h
    obtain ⟨rest, hcalled⟩ := called_of_tokens_endless _ input h (by omega)
    by_contra hmeets
    obtain ⟨b, rest', heq, hb, -⟩ := hcalled.not_tab 0 rfl (by simpa using hmeets)
    exact hb (cons.inj heq).1.symm
  · exact fun h => tokens_endless _ h

theorem terminates_iff : Terminates d input ↔ meetsTab false 0 input = false := by
  constructor
  · rintro ⟨n, hn⟩
    by_contra hmeets
    exact hn (tokens_endless n (by simpa using hmeets))
  · intro h
    refine ⟨2 * input.length + 2, fun hend => ?_⟩
    have hmeets := tokenize_endless_iff.1 hend
    rw [h] at hmeets
    cases hmeets

theorem progresses_iff : Progresses d input ↔ meetsTab false 0 input = false := by
  constructor
  · intro h
    by_contra hmeets
    obtain ⟨rest, hcalled⟩ := called_of_tokens_endless (d := d) _ input
      (tokenize_endless_iff.2 (by simpa using hmeets)) (by omega)
    -- at the tab an empty atom is read
    exact absurd (h _ hcalled 1 _ _ rfl) (by simp [isAtomByte])
  · intro h place hcalled n t left htoken
    obtain ⟨b, rest, rfl, htab, hspace⟩ := hcalled.not_tab 0 rfl h
    exact length_lt_of_token d htoken htab hspace

theorem parseCommand_endless_iff {line : Bytes} :
    parseCommand d line = .error .endless ↔
      ∃ args, argsInput line = some args ∧ tokenize d args = .error .endless := by
  unfold parseCommand argsInput
  dsimp only
  split_ifs with hline htag hempty hafter hall <;> simp_all [bad]
  split <;> simp_all

/-- Where no tab is met, every call of `token` makes progress and the tokenizer ends; where
one is met, neither is so. The two entries are `tokenize_args` and `parse_command`. -/
theorem tokenizer_progresses_iff (line : Bytes) :
    (Progresses d (stripCrlf line) ∧ Terminates d (stripCrlf line) ↔
      meetsTab false 0 (stripCrlf line) = false) ∧
    ((∀ args, argsInput line = some args → Progresses d args) ∧
        parseCommand d line ≠ .error .endless ↔
      ∀ args, argsInput line = some args → meetsTab false 0 args = false) := by
  refine ⟨?_, ?_⟩
  · rw [progresses_iff, terminates_iff, and_self]
  · constructor
    · intro h args hargs
      exact progresses_iff.1 (h.1 args hargs)
    · intro h
      refine ⟨fun args hargs => progresses_iff.2 (h args hargs), fun hend => ?_⟩
      obtain ⟨args, hargs, hend⟩ := parseCommand_endless_iff.1 hend
      exact absurd (tokenize_endless_iff.1 hend) (by simp [h args hargs])

end

example : meetsTab false 0 [quote, tab, quote, space, lbrace, tab] = false := by decide

def asciiDecoding : Decoding where
  lossy bytes := String.ofList (bytes.map fun b => Char.ofNat b.toNat)
  strict bytes := fromUtf8 bytes

def tabbedLine : Bytes := [97, space, 88, space, tab, cr, lf]

theorem tabbedLine_endless :
    argsInput tabbedLine = some [tab] ∧ ¬ Progresses asciiDecoding [tab] ∧
      ¬ Terminates asciiDecoding [tab] ∧ parseCommand asciiDecoding tabbedLine = .error .endless := by
  refine ⟨by decide, ?_, ?_, ?_⟩
  · rw [progresses_iff]
    decide
  · rw [terminates_iff]
    decide
  · exact parseCommand_endless_iff.2 ⟨[tab], by decide, tokenize_endless_iff.2 (by decide)⟩

end IrixMail.Imap.Parsing
