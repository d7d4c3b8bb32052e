import IrixMail.ManageSieve.Session

/-!
# Literals are not read as commands

A line of a ManageSieve session that ends in `{n}` or `{n+}` promises `n` octets. The
command loop and the resolver of literals take them before they look at another line. The
reader of SASL responses does not know literals, and the resolver gives up on a script that
is not UTF-8 without looking at the line after it: lines which promise a literal there are
what `Kept` excludes.
-/

namespace IrixMail.ManageSieve
open Library Monitor
open Framing (Settled meets_settled)
open Directory (StoredScript)

variable (lib : Libraries)

def promised (text : Bytes) : Option ℕ :=
  (marker lib.lossy (stripCr text)).filter (· ≤ maxScriptSize)

def Event.octets : Event → Bytes
  | .line _ text ended => if ended then text ++ [lf] else text
  | .literal octets => octets
  | .said _ => []

def framing : Framing Event UInt8 where
  kind
    | .line _ text _ => .line (promised lib text)
    | .literal _ => .literal
    | .said _ => .aside
  items := Event.octets

/-- Lines whose literal the session does not forget. -/
def Kept : Event → Prop
  | .line .sasl text _ | .line (.continued false) text _ => promised lib text = none
  | _ => True

instance (e : Event) : Decidable (Kept lib e) := by
  unfold Kept
  split <;> infer_instance

abbrev owed : Monitor (Option ℕ) Event UInt8 := (framing lib).owed (Kept lib)

variable {lib} {α β σ : Type} {input : Bytes} {o : Option ℕ}

/-! ## Reading -/

variable {Q : Unit → Bytes → Option ℕ → Prop} {text : String} {length : ℕ} {r : Wire α}
  {tokens : List Token} {s : Session σ}

theorem meets_write (h : Q () input o) :
    (owed lib).Meets (write text) input o Q :=
  meets_emit rfl fun _ => ⟨o, Framing.step_aside rfl o, h⟩

theorem meets_respond {status : String} {code : Option String}
    (h : Q () input o) :
    (owed lib).Meets (respond status code text) input o Q := by
  cases code with
  | none => exact meets_write h
  | some code => exact meets_write h

theorem meets_readLine (place : Place) {Q : Option Bytes → Bytes → Option ℕ → Prop}
    (hsome : ∀ text ended rest, Kept lib (.line place text ended) → rest.length < input.length →
      Q (some text) rest (promised lib text))
    (hnone : Q none [] none) : (owed lib).Meets (readLine place) input none Q := by
  refine meets_line ?_ (fun _ => rfl) ?_ fun _ => hnone
  · intro text b hb
    obtain rfl : b = lf := by simpa using hb
    rfl
  · intro text ended rest hkept hlt
    exact ⟨_, rfl, hsome text ended rest hkept hlt⟩

theorem meets_readExact (ho : o = none ∨ o = some length)
    {Q : Bytes → Bytes → Option ℕ → Prop}
    (h : ∀ octets rest, rest.length ≤ input.length → Q octets rest none) :
    (owed lib).Meets (readExact length) input o Q := by
  refine meets_exactly (fun _ => rfl) ?_
  intro octets rest hlength hrest
  exact ⟨none, Framing.step_literal rfl ho hlength, h octets rest hrest⟩

/-- A reader that starts and ends with nothing owed. -/
def Settles (lib : Libraries) (r : Wire α) : Prop :=
  ∀ input, (owed lib).Meets r input none (Settled input.length)

theorem settles_pure (a : α) : Settles lib (pure a) :=
  fun _ => meets_pure ⟨rfl, Nat.le_refl _⟩

theorem settles_write (text : String) : Settles lib (write text) :=
  fun _ => meets_write ⟨rfl, Nat.le_refl _⟩

theorem settles_respond (status : String) (code : Option String) (text : String) :
    Settles lib (respond status code text) :=
  fun _ => meets_respond ⟨rfl, Nat.le_refl _⟩

theorem settles_orClose (a : Option α) : Settles lib (orClose a) := by
  cases a with
  | none => exact fun _ => meets_close
  | some a => exact settles_pure a

theorem Settles.bind {f : α → Wire β} (h : Settles lib r)
    (hf : ∀ a, Settles lib (f a)) : Settles lib (r >>= f) := by
  intro input
  refine (h input).bind ?_
  rintro a rest _ ⟨rfl, hrest⟩
  exact meets_settled hrest (hf a rest)

/-! ## The commands -/

variable (s tokens)

theorem settles_refuse (code : Option String) (text : String) :
    Settles lib (refuse s code text) :=
  (settles_respond _ _ _).bind fun _ => settles_pure s

theorem settles_completed (text : String) : Settles lib (completed s text) :=
  (settles_respond _ _ _).bind fun _ => settles_pure s

theorem settles_scripts : Settles lib (scripts s) :=
  (settles_orClose _).bind fun _ => settles_orClose _

theorem settles_getByName (name : String) : Settles lib (getByName s name) :=
  (settles_scripts s).bind fun _ => settles_pure _

theorem settles_change (f : Backend σ → σ → Option σ) : Settles lib (change s f) :=
  (settles_orClose _).bind fun _ => (settles_orClose _).bind fun _ => settles_pure _

theorem settles_change_completed (f : Backend σ → σ → Option σ) (text : String) :
    Settles lib (change s f >>= fun s => completed s text) :=
  (settles_change s f).bind fun _ => settles_completed _ _

theorem settles_runHavespace : Settles lib (runHavespace s tokens) := by
  unfold runHavespace
  split
  · split_ifs
    · exact settles_refuse _ _ _
    · refine (settles_scripts s).bind fun scripts => ?_
      split_ifs
      · exact settles_refuse _ _ _
      · exact settles_completed _ _
  · exact settles_refuse _ _ _

theorem settles_runPutscript : Settles lib (runPutscript lib s tokens) := by
  unfold runPutscript
  split
  · split_ifs
    · exact settles_refuse _ _ _
    · split
      · exact settles_refuse _ _ _
      · refine (settles_getByName s _).bind fun existing => ?_
        cases existing with
        | some existing => exact settles_change_completed _ _ _
        | none =>
          refine (settles_scripts s).bind fun scripts => ?_
          split_ifs
          · exact settles_refuse _ _ _
          · exact settles_change_completed _ _ _
  · exact settles_refuse _ _ _

theorem settles_runListscripts : Settles lib (runListscripts s) :=
  (settles_scripts s).bind fun _ => (settles_write _).bind fun _ => settles_completed _ _

theorem settles_named (name : String) {f : StoredScript → Wire (Session σ)}
    (hf : ∀ script, Settles lib (f script)) :
    Settles lib (do
      match ← getByName s name with
      | none => noScript s
      | some script => f script) := by
  refine (settles_getByName s name).bind fun script => ?_
  cases script with
  | none => exact settles_refuse _ _ _
  | some script => exact hf script

theorem settles_runSetactive : Settles lib (runSetactive s tokens) := by
  unfold runSetactive
  split
  · exact settles_refuse _ _ _
  · split_ifs
    · exact settles_change_completed _ _ _
    · exact settles_named s _ fun script => settles_change_completed _ _ _

theorem settles_runGetscript : Settles lib (runGetscript lib s tokens) := by
  unfold runGetscript
  split
  · exact settles_refuse _ _ _
  · exact settles_named s _ fun script => (settles_write _).bind fun _ => settles_completed _ _

theorem settles_runDeletescript : Settles lib (runDeletescript s tokens) := by
  unfold runDeletescript
  split
  · exact settles_refuse _ _ _
  · refine settles_named s _ fun script => ?_
    split_ifs
    · exact settles_refuse _ _ _
    · exact settles_change_completed _ _ _

theorem settles_runRenamescript : Settles lib (runRenamescript s tokens) := by
  unfold runRenamescript
  split
  · refine settles_named s _ fun script => (settles_getByName s _).bind fun target => ?_
    split_ifs
    · exact settles_refuse _ _ _
    · exact settles_change_completed _ _ _
  · exact settles_refuse _ _ _

theorem settles_runCheckscript : Settles lib (runCheckscript lib s tokens) := by
  unfold runCheckscript
  split
  · exact settles_refuse _ _ _
  · split
    · exact settles_refuse _ _ _
    · exact settles_completed _ _

theorem settles_runNoop : Settles lib (runNoop s tokens) := by
  unfold runNoop
  split
  · exact (settles_respond _ _ _).bind fun _ => settles_pure _
  · exact settles_completed _ _

theorem settles_runUnauthenticate : Settles lib (runUnauthenticate s) := by
  unfold runUnauthenticate
  split_ifs
  · exact settles_completed _ _
  · exact settles_refuse _ _ _

/-! ### AUTHENTICATE -/

theorem settles_attempt (user password : String) : Settles lib (attempt s user password) := by
  unfold attempt
  split
  · exact (settles_respond _ _ _).bind fun _ => settles_pure _
  · refine (settles_orClose _).bind fun outcome => ?_
    obtain ⟨outcome, world⟩ := outcome
    cases outcome with
    | granted account by_ => exact (settles_respond _ _ _).bind fun _ => settles_pure _
    | denied => exact (settles_respond _ _ _).bind fun _ => settles_pure _
    | throttled => exact (settles_respond _ _ _).bind fun _ => settles_pure _

/-- A response that promises a literal is one that `Kept` excludes, and no other is owed
anything for. -/
theorem settles_readAuthResponse : Settles lib (readAuthResponse lib) := by
  intro input
  refine meets_bind (meets_readLine .sasl ?_ (meets_pure ⟨rfl, Nat.zero_le _⟩))
  intro text ended rest hkept hlt
  have hnone : promised lib text = none := hkept
  rw [hnone]
  dsimp only
  split_ifs
  · exact meets_pure ⟨rfl, hlt.le⟩
  · split
    · exact meets_pure ⟨rfl, hlt.le⟩
    · split
      · exact meets_pure ⟨rfl, hlt.le⟩
      · exact meets_pure ⟨rfl, hlt.le⟩

theorem settles_response {f : String → Wire (Session σ)}
    (hf : ∀ response, Settles lib (f response)) :
    Settles lib (do
      match ← readAuthResponse lib with
      | none => refuse s none "authentication cancelled"
      | some response => f response) := by
  refine settles_readAuthResponse.bind fun response => ?_
  cases response with
  | none => exact settles_refuse _ _ _
  | some response => exact hf response

theorem settles_authenticatePlain (initial : Option String) :
    Settles lib (authenticatePlain lib s initial) := by
  cases initial with
  | some initial =>
    refine (settles_pure _).bind fun response => ?_
    dsimp only
    split
    · exact settles_refuse _ _ _
    · split
      · exact settles_attempt _ _ _
      · exact settles_refuse _ _ _
  | none =>
    refine (settles_write _).bind fun _ => settles_response s fun response => ?_
    split
    · exact settles_attempt _ _ _
    · exact settles_refuse _ _ _

theorem settles_authenticateLogin : Settles lib (authenticateLogin lib s) := by
  refine (settles_write _).bind fun _ => settles_response s fun user => ?_
  refine (settles_write _).bind fun _ => settles_response s fun password => ?_
  split
  · exact settles_attempt _ _ _
  · exact settles_refuse _ _ _

theorem settles_runAuthenticate : Settles lib (runAuthenticate lib s tokens) := by
  unfold runAuthenticate
  split_ifs
  · exact settles_refuse _ _ _
  · exact settles_refuse _ _ _
  · split
    · exact settles_refuse _ _ _
    · split
      · exact settles_refuse _ _ _
      · exact settles_authenticatePlain _ _
      · exact settles_authenticateLogin _

theorem settles_runCommand (verb : Verb) : Settles lib (runCommand lib s tokens verb) := by
  cases verb with
  | capability => exact (settles_write _).bind fun _ => settles_completed _ _
  | authenticate => exact settles_runAuthenticate _ _
  | noop => exact settles_runNoop _ _
  | unauthenticate => exact settles_runUnauthenticate _
  | havespace => exact settles_runHavespace _ _
  | putscript => exact settles_runPutscript _ _
  | listscripts => exact settles_runListscripts _
  | setactive => exact settles_runSetactive _ _
  | getscript => exact settles_runGetscript _ _
  | deletescript => exact settles_runDeletescript _ _
  | renamescript => exact settles_runRenamescript _ _
  | checkscript => exact settles_runCheckscript _ _
  | starttls | logout | unknown => exact settles_refuse _ _ _

theorem settles_dispatch : Settles lib (dispatch lib s tokens) := by
  unfold dispatch
  dsimp only
  split_ifs
  · exact (settles_refuse _ _ _).bind fun _ => settles_pure _
  · exact (settles_refuse _ _ _).bind fun _ => settles_pure _
  · exact (settles_completed _ _).bind fun _ => settles_pure _
  · exact (settles_completed _ _).bind fun _ => settles_pure _
  · exact (settles_runCommand _ _ _).bind fun _ => settles_pure _

/-! ## Literals -/

variable {s tokens}

def Owes (o : Option ℕ) (tokens : List Token) : Prop :=
  ∀ n, o = some n → tokens.getLast? = some (.literal n)

theorem Owes.literal (h : Owes o tokens)
    (hlast : tokens.getLast? = some (.literal length)) : o = none ∨ o = some length := by
  cases o with
  | none => exact .inl rfl
  | some n =>
    have hsame := (h n rfl).symm.trans hlast
    simp only [Option.some.injEq, Token.literal.injEq] at hsame
    exact .inr (by rw [hsame])

theorem owes_promised {text : Bytes} (h : tokenizeLine lib.lossy (stripCr text) = .ok tokens) :
    Owes (promised lib text) tokens := by
  intro n hn
  have hmarker := (Option.filter_eq_some_iff.mp hn).1
  rw [marker, h] at hmarker
  dsimp only at hmarker
  split at hmarker
  next length hlast => rw [hlast, Option.some.inj hmarker]
  next => cases hmarker

theorem promised_of_error {text : Bytes} {e : ParseError}
    (h : tokenizeLine lib.lossy (stripCr text) = .error e) : promised lib text = none := by
  rw [promised, marker, h]
  rfl

theorem Owes.append {before : List Token} (h : Owes o tokens) : Owes o (before ++ tokens) := by
  intro n hn
  rw [List.getLast?_append, h n hn]
  rfl

theorem meets_resolveFrom (n : ℕ) (hn : input.length < n)
    (ho : Owes o tokens) :
    (owed lib).Meets (resolveFrom lib n tokens) input o (Settled input.length) := by
  induction n generalizing input o tokens with
  | zero => exact absurd hn (Nat.not_lt_zero _)
  | succ n ih =>
    rw [resolveFrom]
    split
    next length hlast =>
      split_ifs
      · exact meets_bind (meets_respond meets_close)
      · refine meets_bind (meets_readExact (ho.literal hlast) ?_)
        intro content rest hrest
        refine meets_bind (meets_readLine _ ?_ (meets_pure ⟨rfl, Nat.zero_le _⟩))
        intro text ended left hkept hleft
        dsimp only
        split
        next e herror =>
          rw [promised_of_error herror]
          exact meets_bind (meets_respond (meets_pure ⟨rfl, by omega⟩))
        next continuation hok =>
          split
          next hinvalid =>
            have hnone : promised lib text = none := by
              rw [hinvalid] at hkept
              exact hkept
            rw [hnone]
            exact meets_bind (meets_respond (meets_pure ⟨rfl, by omega⟩))
          next => exact meets_settled (by omega) (ih (by omega) (owes_promised hok).append)
    next hlast =>
      obtain rfl : o = none := by
        cases o with
        | none => rfl
        | some n => exact absurd (ho n rfl) (hlast n)
      exact meets_pure ⟨rfl, Nat.le_refl _⟩

/-! ## Sessions -/

theorem meets_serveLine (line : Bytes) :
    (owed lib).Meets (serveLine lib s line) input (promised lib line) (Settled input.length) := by
  unfold serveLine
  split
  next e herror =>
    rw [promised_of_error herror]
    exact ((settles_refuse _ _ _).bind fun _ => settles_pure _) input
  next tokens hok =>
    have hresolved : (owed lib).Meets (resolveLiterals lib tokens) input (promised lib line)
        (Settled input.length) :=
      Meets.rounds fun n hn => meets_resolveFrom n hn (owes_promised hok)
    refine hresolved.bind ?_
    rintro tokens rest _ ⟨rfl, hrest⟩
    refine meets_settled hrest ?_
    split
    · exact settles_pure _ _
    · exact settles_pure _ _
    · exact settles_dispatch _ _ _

theorem meets_serveFrom (n : ℕ) (hn : input.length < n) :
    (owed lib).Meets (serveFrom lib n s) input none (Settled input.length) := by
  induction n generalizing input s with
  | zero => exact absurd hn (Nat.not_lt_zero _)
  | succ n ih =>
    refine meets_bind (meets_readLine _ ?_ (meets_pure ⟨rfl, Nat.zero_le _⟩))
    intro line ended rest _ hrest
    refine (meets_serveLine line).bind ?_
    rintro ⟨s', flow⟩ left _ ⟨rfl, hleft⟩
    cases flow with
    | some flow => exact meets_pure ⟨rfl, by omega⟩
    | none => exact meets_settled (by omega) (ih (by omega))

theorem settles_run (s : Session σ) : Settles lib (run lib s) :=
  (settles_write _).bind fun _ => (settles_respond _ _ _).bind fun _ _ =>
    Meets.rounds fun n hn => meets_serveFrom n hn

/-- Whatever the client sends and whatever state the session is in: unless a line promises a
literal in a SASL response or after a script that is not UTF-8, no literal is read as a
command. -/
theorem run_framed (lib : Libraries) (s : Session σ) (stream : Bytes)
    (hkept : ∀ e ∈ (run lib s stream).1, Kept lib e) :
    (framing lib).Framed stream (run lib s stream).1 (run lib s stream).2.isClosed :=
  Framing.framed_of_meets (settles_run s stream) (fun _ _ _ h => h.1) hkept

def octetsOf (text : String) : Bytes := text.toList.map fun c => UInt8.ofNat c.toNat

def plainLibraries : Libraries where
  lossy octets := String.ofList (octets.map fun b => Char.ofNat b.toNat)
  decodeBase64 _ := none
  compileError _ := none
  scriptSource script := script.source

def secured : Session Unit := ⟨.notAuthenticated, true, none, none, ()⟩

def noopLiteral : Bytes := octetsOf "NOOP \x7b2+\x7d\r\nab\r\nLOGOUT\r\n"

theorem noopLiteral_framed :
    (∀ e ∈ (run plainLibraries secured noopLiteral).1, Kept plainLibraries e) ∧
      (framing plainLibraries).Framed noopLiteral (run plainLibraries secured noopLiteral).1
        (run plainLibraries secured noopLiteral).2.isClosed := by
  have hkept : ∀ e ∈ (run plainLibraries secured noopLiteral).1, Kept plainLibraries e := by
    decide +kernel
  exact ⟨hkept, run_framed plainLibraries secured noopLiteral hkept⟩

def saslLiteral : Bytes := octetsOf "AUTHENTICATE PLAIN\r\n\x7b8+\x7d\r\nLOGOUT\r\n"
def brokenScript : Bytes := octetsOf "NOOP \x7b1+\x7d\r\n\xff \x7b8+\x7d\r\nLOGOUT\r\n"

def logout : Event := .line .command (octetsOf "LOGOUT\r") true

theorem literal_dispatched :
    ¬ (framing plainLibraries).Framed saslLiteral (run plainLibraries secured saslLiteral).1
        (run plainLibraries secured saslLiteral).2.isClosed ∧
      ¬ (framing plainLibraries).Framed brokenScript (run plainLibraries secured brokenScript).1
        (run plainLibraries secured brokenScript).2.isClosed := by
  have hlogout : (framing plainLibraries).kind logout ≠ .literal := nofun
  constructor
  · have hlog : (run plainLibraries secured saslLiteral).1 =
        (run plainLibraries secured saslLiteral).1.take 4 ++
          .line .sasl (octetsOf "\x7b8+\x7d\r") true ::
            (run plainLibraries secured saslLiteral).1.drop 5 := by decide +kernel
    have hpromised : promised plainLibraries (octetsOf "\x7b8+\x7d\r") = some 8 := by
      decide +kernel
    exact Framing.not_framed hlog (congrArg Kind.line hpromised) (l := logout)
      (by decide +kernel) hlogout
  · have hlog : (run plainLibraries secured brokenScript).1 =
        (run plainLibraries secured brokenScript).1.take 4 ++
          .line (.continued false) (octetsOf " \x7b8+\x7d\r") true ::
            (run plainLibraries secured brokenScript).1.drop 5 := by decide +kernel
    have hpromised : promised plainLibraries (octetsOf " \x7b8+\x7d\r") = some 8 := by
      decide +kernel
    exact Framing.not_framed hlog (congrArg Kind.line hpromised) (l := logout)
      (by decide +kernel) hlogout

end IrixMail.ManageSieve
