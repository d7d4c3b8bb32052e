import IrixMail.Imap.Literals

/-!
# Literals are not read as commands

A line that ends in `{n+}` promises `n` octets, which have to be the next thing read. Each reader of the
session is followed from the place where it takes the promise over. Where the source
forgets a promise, the line is one that `Kept` excludes.
-/

namespace IrixMail.Imap.Literals
open Library Parsing Monitor
open Framing (Settled meets_settled)

variable {α : Type} {ts : List Token}

/-! ## The monitor -/

def Event.octets : Event → Bytes
  | .line _ text ended => if ended then text ++ [lf] else text
  | .literal octets => octets
  | .said _ => []

def Kept (texts : Texts) : Event → Prop
  | .line place text _ => ∀ n ∈ marker text,
    match place with
    | .command authenticated => ∃ command ∈ (parseCommand texts.toDecoding text).toOption,
        command.args ≠ [] ∧ (isAppend command → authenticated = true ∧
          (command.args.head?.bind (Token.asStr texts.toDecoding)).isSome)
    | .continued | .next => (tokenizeArgs texts.toDecoding text).isOk
    | .refused => False
    | .drained => n ≤ maxAppendSize ∧ (tokenizeArgs texts.toDecoding text).isOk
    | .exchange => True
  | .literal _ | .said _ => True

instance (texts : Texts) (e : Event) : Decidable (Kept texts e) := by
  cases e with
  | line place text ended => cases place <;> exact inferInstanceAs (Decidable (∀ _ ∈ _, _))
  | literal octets => exact .isTrue trivial
  | said reply => exact .isTrue trivial

theorem exists_of_isOk {scan : Scan α} (h : scan.isOk) : ∃ a, scan = .ok a := by
  cases scan with
  | ok a => exact ⟨a, rfl⟩
  | error e => cases h

def framing : Framing Event UInt8 where
  kind
    | .line place text _ => .line (if place = .exchange then none else marker text)
    | .literal _ => .literal
    | .said _ => .aside
  items := Event.octets

abbrev owed (texts : Texts) : Monitor (Option ℕ) Event UInt8 := framing.owed (Kept texts)

variable {texts : Texts} {input : Bytes} {o : Option ℕ}

variable {Q : Unit → Bytes → Option ℕ → Prop} {sync : Bool} {length : ℕ} {args : List Token}
  {text line : Bytes} {place : Place} {command : ParsedCommand}

theorem meets_say {reply : Reply} (h : Q () input o) :
    (owed texts).Meets (say reply) input o Q :=
  meets_emit rfl fun _ => ⟨o, Framing.step_aside rfl o, h⟩

theorem meets_respond {tag : String} {status : Status} {text : String}
    (h : Q () input o) :
    (owed texts).Meets (respond tag status text) input o Q :=
  meets_say h

theorem meets_proceed (h : Q () input o) :
    (owed texts).Meets (proceed sync) input o Q := by
  cases sync with
  | false => exact meets_pure h
  | true => exact meets_say h

def owedFor (place : Place) : Option Bytes → Option ℕ
  | some text => if place = .exchange then none else marker text
  | none => none

/-- A line read at `place`, if any, is one that the session keeps its word for. -/
def KeptLine (texts : Texts) (place : Place) : Option Bytes → Prop
  | some text => ∃ ended, Kept texts (.line place text ended)
  | none => True

theorem readLine_eq (place : Place) :
    readLine place = .line (· ≠ lf) maxLineLength (.line place) := by
  funext input
  unfold readLine Reader.line
  cases input.dropWhile (· ≠ lf) with
  | cons b rest => rfl
  | nil => simp only [List.length_eq_zero_iff]

theorem meets_readLine (place : Place) {Q : Option Bytes → Bytes → Option ℕ → Prop}
    (h : ∀ line rest, KeptLine texts place line → rest.length ≤ input.length →
      (line.isSome → rest.length < input.length) → Q line rest (owedFor place line)) :
    (owed texts).Meets (readLine place) input none Q := by
  rw [readLine_eq]
  refine meets_line ?_ (fun _ => rfl) ?_ ?_
  · intro text b hb
    obtain rfl : b = lf := by simpa using hb
    rfl
  · intro text ended rest hkept hlt
    exact ⟨_, rfl, h (some text) rest ⟨ended, hkept⟩ hlt.le fun _ => hlt⟩
  · rintro rfl
    exact h none [] trivial (Nat.le_refl _) (by simp)

theorem meets_readLiteral (ho : o = none ∨ o = some length)
    {Q : Bytes → Bytes → Option ℕ → Prop}
    (h : ∀ octets rest, rest.length ≤ input.length → Q octets rest none) :
    (owed texts).Meets (readLiteral length) input o Q := by
  refine meets_exactly (fun _ => rfl) ?_
  intro octets rest hlength hrest
  exact ⟨none, Framing.step_literal rfl ho hlength, h octets rest hrest⟩

theorem meets_whenTokens {scan : Scan (List Token)} {failed : ParseError → Wire α}
    {next : List Token → Wire α} {Q : α → Bytes → Option ℕ → Prop}
    (hok : ∀ ts, scan = .ok ts → (owed texts).Meets (next ts) input o Q)
    (hfail : (∀ ts, scan ≠ .ok ts) → o = none)
    (herror : ∀ e, (owed texts).Meets (failed e) input none Q) :
    (owed texts).Meets (whenTokens scan failed next) input o Q := by
  cases scan with
  | ok ts => exact hok ts rfl
  | error e =>
    obtain rfl := hfail fun _ hts => by cases hts
    cases e with
    | error e => exact herror e
    | endless => exact meets_loopForever rfl

def Owes (o : Option ℕ) (args : List Token) : Prop :=
  ∀ n, o = some n → args.getLast? = some (.literal n false)

theorem Owes.literal (h : Owes o args)
    (hlast : args.getLast? = some (.literal length sync)) :
    o = none ∨ o = some length ∧ sync = false := by
  cases o with
  | none => exact .inl rfl
  | some n =>
    have := (h n rfl).symm.trans hlast
    simp only [Option.some.injEq, Token.literal.injEq] at this
    exact .inr ⟨by rw [this.1], this.2.symm⟩

theorem Owes.none (h : Owes o args)
    (hlast : ∀ n, args.getLast? ≠ some (.literal n false)) : o = none := by
  cases o with
  | none => rfl
  | some n => exact absurd (h n rfl) (hlast n)

theorem owes_tokens (h : tokenizeArgs texts.toDecoding text = .ok ts) : Owes (marker text) ts :=
  fun _ hn => getLast?_tokenizeArgs _ h hn

theorem meets_reject {e : ParseError} (h : Q () input o) : (owed texts).Meets
    (reject texts line e) input o Q := by
  unfold reject
  split
  · exact meets_respond h
  · exact meets_say h

/-! ## The readers of the session -/

theorem KeptLine.owed_none (h : KeptLine texts place (some text)) (hplace : place ≠ .command true)
    (hcommand : place ≠ .command false)
    (hscan : ∀ ts, tokenizeArgs texts.toDecoding text ≠ .ok ts) :
    owedFor place (some text) = none := by
  obtain ⟨ended, hkept⟩ := h
  unfold owedFor
  split_ifs with hexchange
  · rfl
  · cases hmarker : marker text with
    | none => exact hmarker
    | some n =>
      have hfail (hok : (tokenizeArgs texts.toDecoding text).isOk) : False := by
        obtain ⟨ts, hts⟩ := exists_of_isOk hok
        exact hscan ts hts
      have hthis := hkept n hmarker
      cases place with
      | command authenticated => cases authenticated <;> contradiction
      | continued => exact (hfail hthis).elim
      | refused => exact hthis.elim
      | next => exact (hfail hthis).elim
      | drained => exact (hfail hthis.2).elim
      | exchange => contradiction

theorem meets_resolveFrom (n : ℕ) (resolved : List Token)
    (hn : input.length < n) (ho : Owes o command.args) :
    (owed texts).Meets (resolveFrom texts n command resolved) input o (Settled input.length) := by
  induction n generalizing input o command resolved with
  | zero => exact absurd hn (Nat.not_lt_zero _)
  | succ n ih =>
    rw [resolveFrom]
    split
    next length sync hlast =>
      have howed : o = none ∨ o = some length := (ho.literal hlast).imp id And.left
      split_ifs with hlong
      · exact meets_bind (meets_respond meets_close)
      · refine meets_bind (meets_proceed (meets_bind (meets_readLiteral howed ?_)))
        intro octets rest hrest
        refine meets_bind (meets_readLine .continued ?_)
        intro line left hkept hleft hshorter
        cases line with
        | none => exact meets_close
        | some continuation =>
          have hleft := hshorter rfl
          refine meets_whenTokens ?_ (hkept.owed_none (by simp) (by simp)) ?_
          · intro ts hts
            exact meets_settled (by omega) (ih _ (by omega) (owes_tokens hts))
          · intro e
            exact meets_bind (meets_reject (meets_pure ⟨rfl, by omega⟩))
    next hlast =>
      obtain rfl := ho.none fun n hn => hlast n false hn
      exact meets_pure ⟨rfl, Nat.le_refl _⟩

theorem meets_resolveLiterals (happend : isAppend command = false)
    (ho : Owes o command.args) :
    (owed texts).Meets (resolveLiterals texts command) input o (Settled input.length) := by
  rw [resolveLiterals, happend]
  exact Meets.rounds fun n hn => meets_resolveFrom n [] hn ho

theorem meets_serve {σ : Type} (handling : Handling σ) :
    (owed texts).Meets handling.serve input none (Settled input.length) := by
  induction handling generalizing input with
  | done s => exact meets_pure ⟨rfl, Nat.le_refl _⟩
  | close => exact meets_close
  | say reply next ih => exact meets_bind (meets_say ih)
  | readLine next ih =>
    refine meets_bind (meets_readLine .exchange ?_)
    intro line rest _ hrest _
    have hnone : owedFor .exchange line = none := by cases line <;> rfl
    rw [hnone]
    exact meets_settled hrest (ih line)

structure Trailing (texts : Texts) (place : Place) (before : Bytes) (text rest : Bytes)
    (o : Option ℕ) : Prop where
  shorter : text ≠ [] → rest.length < before.length
  le : rest.length ≤ before.length
  kept : ∀ n, o = some n → marker text = some n ∧ ∃ ended, Kept texts (.line place text ended)

theorem meets_readTrailing (hplace : place ≠ .exchange) :
    (owed texts).Meets (readTrailing place) input none
      fun text rest o => Trailing texts place input text rest o := by
  refine meets_bind (meets_readLine place ?_)
  intro line rest hkept hrest hshorter
  refine meets_pure ?_
  cases line with
  | none => exact ⟨fun h => absurd rfl h, hrest, fun _ h => by cases h⟩
  | some text =>
    refine ⟨fun _ => hshorter rfl, hrest, fun n hn => ?_⟩
    rw [owedFor, if_neg hplace] at hn
    exact ⟨hn, hkept⟩

/-- Nothing is owed for a drained line, or a literal that is going to be dropped. -/
def Drainable (texts : Texts) (o : Option ℕ) (line : Bytes) : Prop :=
  ∀ n, o = some n → n ≤ maxAppendSize ∧
    ∃ ts, tokenizeArgs texts.toDecoding line = .ok ts ∧ ts.getLast? = some (.literal n false)

theorem drainable_of_kept
    (h : ∀ n, o = some n → marker text = some n ∧ ∃ ended, Kept texts (.line .drained text ended)) :
    Drainable texts o text := by
  intro n hn
  obtain ⟨hmarker, ended, hkept⟩ := h n hn
  obtain ⟨hle, hok⟩ := hkept n hmarker
  obtain ⟨ts, hts⟩ := exists_of_isOk hok
  exact ⟨hle, ts, hts, getLast?_tokenizeArgs _ hts hmarker⟩

theorem meets_drainFrom (n : ℕ) (hn : input.length < n)
    (hline : Drainable texts o line) :
    (owed texts).Meets (drainFrom texts n line) input o (Settled input.length) := by
  induction n generalizing input o line with
  | zero => exact absurd hn (Nat.not_lt_zero _)
  | succ n ih =>
    have howes {ts : List Token} (hts : tokenizeArgs texts.toDecoding line = .ok ts) :
        Owes o ts := by
      intro k hk
      obtain ⟨-, ts', hts', hlast⟩ := hline k hk
      rw [hts] at hts'
      rw [Except.ok.inj hts', hlast]
    refine meets_whenTokens ?_ ?_ fun e => meets_pure ⟨rfl, Nat.le_refl _⟩
    · intro ts hts
      split
      next length sync hlast =>
        split_ifs with hstop
        · rcases (howes hts).literal hlast with rfl | ⟨rfl, rfl⟩
          · exact meets_pure ⟨rfl, Nat.le_refl _⟩
          · have hle := (hline length rfl).1
            rcases hstop with hsync | hlong
            · cases hsync
            · exact absurd hle (Nat.not_le_of_lt hlong)
        · refine meets_bind (meets_readLiteral
            (((howes hts).literal hlast).imp id And.left) fun octets rest hrest => ?_)
          refine meets_bind (meets_readLine .drained ?_)
          intro line' left hkept hleft hshorter
          cases line' with
          | none => exact meets_pure ⟨rfl, by omega⟩
          | some line' =>
            have hleft := hshorter rfl
            exact meets_settled (by omega) (ih (by omega) (drainable_of_kept fun _ hn => ⟨hn, hkept⟩))
      next hlast =>
        obtain rfl := (howes hts).none fun n hn => hlast n false hn
        exact meets_pure ⟨rfl, Nat.le_refl _⟩
    · intro hscan
      cases o with
      | none => rfl
      | some k =>
        obtain ⟨-, ts, hts, -⟩ := hline k rfl
        exact absurd hts (hscan ts)

theorem meets_drainAppends (hline : Drainable texts o line) :
    (owed texts).Meets (drainAppends texts line) input o (Settled input.length) :=
  Meets.rounds fun n hn => meets_drainFrom n hn hline

theorem meets_drain {next : Wire α}
    (hnext : ∀ rest : Bytes, rest.length ≤ input.length →
      (owed texts).Meets next rest none (Settled input.length))
    :
    (owed texts).Meets (do
      let trailing ← readTrailing .drained
      drainAppends texts trailing
      next) input none (Settled input.length) := by
  refine (meets_readTrailing (by decide)).bind ?_
  intro text rest o' htrailing
  refine (meets_drainAppends (drainable_of_kept htrailing.kept)).bind ?_
  rintro _ left _ ⟨rfl, hleft⟩
  exact hnext left (hleft.trans htrailing.le)

section
variable {σ μ : Type} {h : Handlers σ μ} {tag : String} {s : σ}

theorem meets_abandon {code : Option Code} {text : String} :
    (owed texts).Meets (abandon texts tag s code text) input none (Settled input.length) :=
  meets_drain fun _ hrest => meets_bind (meets_say (meets_pure ⟨rfl, hrest⟩))

variable {mailbox : μ} {length : ℕ} {sync : Bool} {parsed : ParsedCommand}

theorem meets_completed {uids : List ℕ} :
    (owed texts).Meets (completed h tag s mailbox uids) input none (Settled input.length) :=
  meets_bind (meets_say (meets_pure ⟨rfl, Nat.le_refl _⟩))

theorem meets_refuseGroup (ho : o = none ∨ o = some length ∧ sync = false) :
    (owed texts).Meets (refuseGroup texts tag s length sync) input o (Settled input.length) := by
  unfold refuseGroup
  split_ifs with hsync hlong
  · rcases ho with rfl | ⟨-, rfl⟩
    · exact meets_bind (meets_respond (meets_pure ⟨rfl, Nat.le_refl _⟩))
    · cases hsync
  · exact meets_bind (meets_respond meets_close)
  · refine meets_bind (meets_readLiteral (ho.imp id And.left) fun octets rest hrest => ?_)
    exact meets_settled hrest (meets_drain fun left hleft =>
      meets_bind (meets_respond (meets_pure ⟨rfl, hleft⟩)))

theorem getLast?_of_group {next : AppendGroup} (hnext : parseContinuation texts ts = .group next) :
    ts.getLast? = some (.literal next.literalLen next.sync) := by
  unfold parseContinuation at hnext
  split at hnext
  next length sync hlast =>
    split at hnext
    · cases hnext
    · cases hnext
      exact hlast
  next => cases hnext

theorem getLast?_of_bad {length : ℕ} {sync : Bool}
    (hbad : parseContinuation texts ts = .bad length sync) :
    ts.getLast? = some (.literal length sync) := by
  unfold parseContinuation at hbad
  split at hbad
  next hlast =>
    split at hbad
    · cases hbad
      exact hlast
    · cases hbad
  next => cases hbad

theorem not_literal_of_finish (hend : parseContinuation texts ts = .finish) (n : ℕ) :
    ts.getLast? ≠ some (.literal n false) := by
  intro hlast
  unfold parseContinuation at hend
  rw [hlast] at hend
  dsimp only at hend
  split at hend <;> cases hend

theorem meets_appendFrom (n : ℕ) {group : AppendGroup} (uids : List ℕ)
    (hn : input.length < n)
    (ho : o = none ∨ o = some group.literalLen ∧ group.sync = false) :
    (owed texts).Meets (appendFrom texts h tag mailbox n s group uids) input o
      (Settled input.length) := by
  induction n generalizing input o s group uids with
  | zero => exact absurd hn (Nat.not_lt_zero _)
  | succ n ih =>
    rw [appendFrom]
    split_ifs with hlong hsync
    · rcases ho with rfl | ⟨-, hnot⟩
      · exact meets_bind (meets_respond (meets_pure ⟨rfl, Nat.le_refl _⟩))
      · rw [hsync] at hnot
        cases hnot
    · exact meets_bind (meets_respond meets_close)
    · refine meets_bind (meets_proceed (meets_bind
        (meets_readLiteral (ho.imp id And.left) fun octets rest hrest => ?_)))
      split
      next => exact meets_close
      next => exact meets_settled hrest meets_abandon
      next => exact meets_settled hrest meets_abandon
      next uid s' _ =>
        refine (meets_readTrailing (by decide)).bind fun text left o' htrailing => ?_
        have hleft := htrailing.le.trans hrest
        refine meets_whenTokens ?_ ?_ fun e => meets_settled hleft meets_completed
        · intro ts hts
          have howes : Owes o' ts := fun k hk =>
            getLast?_tokenizeArgs _ hts (htrailing.kept k hk).1
          cases hnext : parseContinuation texts ts with
          | finish =>
            obtain rfl := howes.none (not_literal_of_finish hnext)
            exact meets_settled hleft meets_completed
          | group next =>
            have hlast := getLast?_of_group hnext
            have htext : text ≠ [] := by
              rintro rfl
              obtain rfl : [] = ts := Except.ok.inj hts
              cases hlast
            have hshorter := htrailing.shorter htext
            exact meets_settled hleft (ih _ (by omega) (howes.literal hlast))
          | bad length sync =>
            exact meets_settled hleft (meets_refuseGroup (howes.literal (getLast?_of_bad hnext)))
        · intro hscan
          cases o' with
          | none => rfl
          | some k =>
            obtain ⟨hmarker, ended, hkept⟩ := htrailing.kept k rfl
            obtain ⟨ts, hts⟩ := exists_of_isOk (hkept k hmarker)
            exact absurd hts (hscan ts)

theorem meets_drainFirst (ho : o = none ∨ o = some length ∧ sync = false) :
    (owed texts).Meets (drainFirst length sync) input o (Settled input.length) := by
  unfold drainFirst
  split_ifs with hsync
  · rcases ho with rfl | ⟨-, rfl⟩
    · exact meets_pure ⟨rfl, Nat.le_refl _⟩
    · cases hsync
  · refine meets_bind (meets_readLiteral (ho.imp id And.left) fun octets rest hrest => ?_)
    refine (meets_readTrailing (by decide)).bind fun text left o' htrailing => ?_
    refine meets_pure ⟨?_, htrailing.le.trans hrest⟩
    cases o' with
    | none => rfl
    | some k =>
      obtain ⟨hmarker, ended, hkept⟩ := htrailing.kept k rfl
      exact (hkept k hmarker).elim

theorem getLast?_of_parseAppend {args : List Token} {command : AppendCommand}
    (hparse : parseAppend texts args = .ok command) :
    args.getLast? = some (.literal command.literalLen command.sync) := by
  unfold parseAppend at hparse
  split at hparse
  · cases hparse
  · split at hparse
    next hlast =>
      split at hparse
      · cases hparse
      · cases hparse
        exact hlast
    next => cases hparse

theorem getLast?_of_badDate {args : List Token} {length : ℕ} {sync : Bool}
    (hparse : parseAppend texts args = .error (.badDate length sync)) :
    args.getLast? = some (.literal length sync) := by
  unfold parseAppend at hparse
  split at hparse
  · cases hparse
  · split at hparse
    next hlast =>
      split at hparse
      · cases hparse
        exact hlast
      · cases hparse
    next => cases hparse

theorem badDate_of_error {args : List Token} {n : ℕ} {e : AppendError}
    (hhead : (args.head?.bind (Token.asStr texts.toDecoding)).isSome)
    (hlast : args.getLast? = some (.literal n false)) (hparse : parseAppend texts args = .error e) :
    e = .badDate n false := by
  obtain ⟨mailbox, hmailbox⟩ := Option.isSome_iff_exists.mp hhead
  unfold parseAppend at hparse
  rw [hmailbox, hlast] at hparse
  dsimp only at hparse
  split at hparse <;> cases hparse
  rfl

theorem meets_runAppend (ho : Owes o parsed.args)
    (hkept : ∀ n, o = some n → h.authenticated s = true ∧
      (parsed.args.head?.bind (Token.asStr texts.toDecoding)).isSome) :
    (owed texts).Meets (runAppend texts h s parsed) input o (Settled input.length) := by
  unfold runAppend
  split_ifs with hauth
  · cases o with
    | none => exact meets_bind (meets_respond (meets_pure ⟨rfl, Nat.le_refl _⟩))
    | some n =>
      rw [(hkept n rfl).1] at hauth
      cases hauth
  · cases hparse : parseAppend texts parsed.args with
    | ok command =>
      have howed := ho.literal (getLast?_of_parseAppend hparse)
      dsimp only
      split_ifs with hlong hsync
      · rcases howed with rfl | ⟨-, hnot⟩
        · exact meets_bind (meets_respond (meets_pure ⟨rfl, Nat.le_refl _⟩))
        · rw [hsync] at hnot
          cases hnot
      · exact meets_bind (meets_respond meets_close)
      · split
        · refine (meets_drainFirst howed).bind ?_
          rintro _ rest _ ⟨rfl, hrest⟩
          exact meets_bind (meets_say (meets_pure ⟨rfl, hrest⟩))
        · exact Meets.rounds fun n hn => meets_appendFrom n [] hn howed
    | error e =>
      cases e with
      | badDate length sync =>
        have howed := ho.literal (getLast?_of_badDate hparse)
        dsimp only
        split_ifs with hlong
        · exact meets_bind (meets_respond meets_close)
        · refine (meets_drainFirst howed).bind ?_
          rintro _ rest _ ⟨rfl, hrest⟩
          exact meets_bind (meets_respond (meets_pure ⟨rfl, hrest⟩))
      | _ =>
        obtain rfl : o = none := by
          cases o with
          | none => rfl
          | some n => cases badDate_of_error (hkept n rfl).2 (ho n rfl) hparse
        exact meets_bind (meets_respond (meets_pure ⟨rfl, Nat.le_refl _⟩))

theorem meets_dispatch :
    (owed texts).Meets (dispatch texts h s parsed) input none (Settled input.length) := by
  unfold dispatch
  split_ifs
  · exact meets_runAppend (fun _ hn => by cases hn) fun _ hn => by cases hn
  · exact meets_serve _

theorem meets_serveLine {line : Bytes}
    (hkept : KeptLine texts (.command (h.authenticated s)) (some line)) :
    (owed texts).Meets (serveLine texts h s line) input (marker line) (Settled input.length) := by
  obtain ⟨ended, hkept⟩ := hkept
  unfold serveLine
  cases hparse : parseCommand texts.toDecoding line with
  | error e =>
    have hnone : marker line = none := by
      cases hmarker : marker line with
      | none => rfl
      | some n =>
        obtain ⟨command, hok, -⟩ := hkept n hmarker
        simp [hparse, Except.toOption] at hok
    rw [hnone]
    cases e with
    | error e => exact meets_bind (meets_reject (meets_pure ⟨rfl, Nat.le_refl _⟩))
    | endless => exact meets_loopForever rfl
  | ok command =>
    have hline (n : ℕ) (hn : marker line = some n) : command.args ≠ [] ∧
        (isAppend command → h.authenticated s = true ∧
          (command.args.head?.bind (Token.asStr texts.toDecoding)).isSome) := by
      obtain ⟨command', hok, hargs⟩ := hkept n hn
      obtain rfl : command = command' := by simpa [hparse, Except.toOption] using hok
      exact hargs
    have howes : Owes (marker line) command.args := fun n hn =>
      getLast?_args _ hparse (hline n hn).1 hn
    dsimp only
    cases happend : isAppend command with
    | true =>
      rw [resolveLiterals, if_pos happend]
      refine meets_bind (meets_pure ?_)
      dsimp only
      rw [dispatch, if_pos happend]
      exact meets_runAppend howes fun n hn => (hline n hn).2 happend
    | false =>
      refine (meets_resolveLiterals happend howes).bind ?_
      rintro read rest _ ⟨rfl, hrest⟩
      cases read with
      | rejected => exact meets_pure ⟨rfl, hrest⟩
      | ready command' => exact meets_settled hrest meets_dispatch

theorem meets_serveFrom (n : ℕ) (hn : input.length < n) :
    (owed texts).Meets (serveFrom texts h n s) input none (Settled input.length) := by
  induction n generalizing input s with
  | zero => exact absurd hn (Nat.not_lt_zero _)
  | succ n ih =>
    refine meets_bind (meets_readLine _ ?_)
    intro line rest hkept _ hshorter
    cases line with
    | none => exact meets_close
    | some line =>
      have hrest := hshorter rfl
      refine (meets_serveLine hkept).bind ?_
      rintro s' left _ ⟨rfl, hleft⟩
      exact meets_settled (by omega) (ih (by omega))

end

/-! ## Sessions -/

def Event.isRead : Event → Bool
  | .said _ => false
  | _ => true

/-- Each line that ends in `{n+}` is followed by `n` octets read as a literal, before
anything else is read, or the connection is closed; the octets are taken in the order in
which they come. -/
structure Framed (stream : Bytes) (log : List Event) (closed : Prop) : Prop where
  literal : ∀ before place text ended after n, log = before ++ .line place text ended :: after →
    place ≠ .exchange → marker text = some n →
      (∃ octets, after.find? Event.isRead = some (.literal octets) ∧ octets.length = n) ∨
        after.find? Event.isRead = none ∧ closed
  inOrder : log.flatMap Event.octets <+: stream

def isClosed {β α : Type} : Outcome β α → Bool
  | .closed => true
  | _ => false

/-- Whatever the client sends and whatever state the session is in: if the lines that end
in `{n+}` are ones the session does not forget, no literal is read as a command. -/
theorem framed_of_kept {σ μ : Type} (texts : Texts) (h : Handlers σ μ) (s : σ) (stream : Bytes)
    (hkept : ∀ e ∈ (serve texts h s stream).1, Kept texts e) :
    Framed stream (serve texts h s stream).1 (isClosed (serve texts h s stream).2) := by
  have hmeets : (owed texts).Meets (serve texts h s) stream none (Settled stream.length) :=
    Meets.rounds fun n hn => meets_serveFrom n hn
  have hread : framing.isRead = Event.isRead := by
    funext e
    cases e <;> rfl
  have hend : isClosed (serve texts h s stream).2 = (serve texts h s stream).2.isClosed := by
    cases (serve texts h s stream).2 <;> rfl
  have hframed := Framing.framed_of_meets hmeets (fun _ _ _ h => h.1) hkept
  refine ⟨?_, hframed.inOrder⟩
  intro before place text ended after n hlog hplace hmarker
  rw [← hread]
  refine (hframed.literal before _ after n hlog (by simp [framing, hplace, hmarker])).imp_left ?_
  rintro ⟨l, hl, hliteral, hlength⟩
  cases l with
  | literal octets => exact ⟨octets, hl, hlength⟩
  | line place text ended => cases hliteral
  | said reply => cases hliteral

/-! ### A session that forgets -/

def ascii : Decoding where
  lossy octets := String.ofList (octets.map fun b => Char.ofNat b.toNat)
  strict octets := some (String.ofList (octets.map fun b => Char.ofNat b.toNat))

def plainTexts : Texts := ⟨ascii, fun _ => none⟩

/-- A session in which every command but LOGOUT and APPEND logs in, with an INBOX that takes
every message. -/
def plainHandlers : Handlers Bool Unit where
  authenticated s := s
  mailboxNamed _ name := if name = "INBOX" then some () else none
  uidValidity _ := 1
  appendOne s _ _ _ _ := some (.stored 1, s)
  handle _ command := if command.name = "LOGOUT" then .close else .done true

def octetsOf (text : String) : Bytes := text.toList.map fun c => UInt8.ofNat c.toNat

/-- A message before the login, a search key inside a list, and a second message for a
mailbox that does not exist. -/
def unauthenticated : Bytes := octetsOf "a1 APPEND INBOX \x7b11+\x7d\r\na2 LOGOUT\r\n"
def insideList : Bytes := octetsOf "a1 SEARCH (SUBJECT \x7b11+\x7d\r\na2 LOGOUT\r\n"
def noMailbox : Bytes :=
  octetsOf "a1 APPEND Nowhere \x7b1+\x7d\r\nx \x7b11+\x7d\r\na2 LOGOUT\r\n"

def logout (authenticated : Bool) : Event :=
  .line (.command authenticated) (octetsOf "a2 LOGOUT\r") true

theorem literal_read_as_command :
    ¬ Framed unauthenticated (serve plainTexts plainHandlers false unauthenticated).1
        (isClosed (serve plainTexts plainHandlers false unauthenticated).2) ∧
      ¬ Framed insideList (serve plainTexts plainHandlers true insideList).1
        (isClosed (serve plainTexts plainHandlers true insideList).2) ∧
      ¬ Framed noMailbox (serve plainTexts plainHandlers true noMailbox).1
        (isClosed (serve plainTexts plainHandlers true noMailbox).2) := by
  refine ⟨fun h => ?_, fun h => ?_, fun h => ?_⟩
  · have := h.literal [] (.command false) (octetsOf "a1 APPEND INBOX \x7b11+\x7d\r") true
      [.said (.tagged "a1" (refusal "Authenticate first")), logout false] 11
      (by decide +kernel) (by decide) (by decide +kernel)
    simp [logout, Event.isRead] at this
  · have := h.literal [] (.command true) (octetsOf "a1 SEARCH (SUBJECT \x7b11+\x7d\r") true
      [.said (.tagged "a1" (.tagged .bad none "unterminated parenthesized list")), logout true] 11
      (by decide +kernel) (by decide) (by decide +kernel)
    simp [logout, Event.isRead] at this
  · have := h.literal [.line (.command true) (octetsOf "a1 APPEND Nowhere \x7b1+\x7d\r") true,
        .literal (octetsOf "x")] .refused (octetsOf " \x7b11+\x7d\r") true
      [.said (.tagged "a1" (.tagged .no (some .tryCreate) "mailbox does not exist")), logout true] 11
      (by decide +kernel) (by decide) (by decide +kernel)
    simp [logout, Event.isRead] at this

def twoMessages : Bytes :=
  octetsOf "a1 APPEND INBOX \x7b1+\x7d\r\nx \x7b2+\x7d\r\nyz\r\na2 LOGOUT\r\n"

theorem twoMessages_framed :
    (∀ e ∈ (serve plainTexts plainHandlers true twoMessages).1, Kept plainTexts e) ∧
      Framed twoMessages (serve plainTexts plainHandlers true twoMessages).1
        (isClosed (serve plainTexts plainHandlers true twoMessages).2) := by
  have hkept : ∀ e ∈ (serve plainTexts plainHandlers true twoMessages).1, Kept plainTexts e := by
    decide +kernel
  exact ⟨hkept, framed_of_kept plainTexts plainHandlers true twoMessages hkept⟩

end IrixMail.Imap.Literals
