import IrixMail.Sieve.Matching

/-!
# The Sieve machine

A compiled script is a list of instructions with jumps. The run collects what
the message is to be done with and stops at the end of the script, at `stop`,
or when its steps exceed the limit.
-/

namespace IrixMail.Sieve

inductive AddressPart
  | all
  | localpart
  | domain

inductive EnvelopePart
  | «from»
  | «to»

structure Keys where
  keys : List String
  matchType : MatchType
  comparator : Comparator

def Keys.any (k : Keys) (value : String) : Bool :=
  k.keys.any fun key => valueMatches k.matchType k.comparator key value

inductive Test
  | header (headers : List String) (keys : Keys) (isNot : Bool)
  | address (headers : List String) (keys : Keys) (part : AddressPart) (isNot : Bool)
  | envelope (parts : List EnvelopePart) (keys : Keys) (part : AddressPart) (isNot : Bool)
  | exists (headers : List String) (isNot : Bool)
  | size (isOver : Bool) (limit : ℕ) (isNot : Bool)
  | bool (value : Bool)

inductive Instruction
  | test (test : Test)
  | jmp (target : ℕ)
  | jz (target : ℕ)
  | jnz (target : ℕ)
  | keep
  | discard
  | stop
  | fileInto (mailbox : String)
  | redirect (address : String)
  | addFlag (flags : List String)
  | setFlag (flags : List String)
  | removeFlag (flags : List String)

/-! ## The message and the envelope -/

structure MailAddress where
  name : Option String
  address : Option String

inductive HeaderValue
  | text (text : String)
  | textList (list : List String)
  | address (addresses : List MailAddress)
  -- a header of any other kind, as its raw text
  | other (raw : String)

/-- What the MIME parser reads from the raw message. -/
structure MessageView where
  size : ℕ
  headers : List (String × HeaderValue)

def MessageView.headersNamed (m : MessageView) (name : String) : List HeaderValue :=
  (m.headers.filter fun h => eqIgnoreAsciiCase h.1 name).map Prod.snd

def MailAddress.display (a : MailAddress) : String :=
  match a.name, a.address with
  | some name, some email => name ++ " <" ++ email ++ ">"
  | none, some email => email
  | some name, none => name
  | none, none => ""

def MessageView.headerValues (m : MessageView) (name : String) : List String :=
  (m.headersNamed name).map fun
    | .text text => text
    | .textList list => ", ".intercalate list
    | .address addresses => ", ".intercalate (addresses.map MailAddress.display)
    | .other raw => raw

def addressPart (address : String) : AddressPart → String
  | .all => address
  | .localpart => (rsplitOnce '@' address).elim address Prod.fst
  | .domain => (rsplitOnce '@' address).elim "" Prod.snd

def MessageView.headerAddresses (m : MessageView) (name : String) (part : AddressPart) :
    List String :=
  (m.headersNamed name).flatMap fun
    | .address (a :: rest) =>
      (a :: rest).map fun addr => addressPart ((addr.address.or addr.name).getD "") part
    | _ => [""]

def parseEnvelopeAddress (input : String) : Option String := do
  let value ← match (trim input).toList with
    | '<' :: rest =>
      if rest.getLast? = some '>' then some (trim (String.ofList rest.dropLast)).toList else none
    | value => some value
  if value = [] then return ""
  let value ← match value with
    | '@' :: _ => if ':' ∈ value then some ((value.dropWhile (· != ':')).drop 1) else none
    | _ => some value
  if value.any fun c => c.toNat ≤ 32 || 127 ≤ c.toNat then none
  let value := String.ofList value
  match rsplitOnce '@' value with
  | none =>
    if eqIgnoreAsciiCase value "mailer-daemon" then some (toAsciiLowercase value) else none
  | some (user, domain) =>
    if user = "" ∨ domain = "" ∨ '@' ∈ user.toList ∨ ['.', '.'] <:+: domain.toList then none
    else some value

structure Envelope where
  «from» : String
  «to» : String

/-! ## The run -/

structure Limits where
  cpu : ℕ
  maxRedirects : ℕ

structure Outcome where
  keep : Bool
  discarded : Bool
  fileInto : List String
  redirects : List String
  flags : List String

def eval (message : MessageView) (envelope : Envelope) : Test → Bool
  | .bool value => value
  | .header headers keys isNot =>
    (headers.any fun h => (message.headerValues h).any keys.any) ^^ isNot
  | .address headers keys part isNot =>
    (headers.any fun h => (message.headerAddresses h part).any keys.any) ^^ isNot
  | .envelope parts keys part isNot =>
    (parts.any fun p =>
      let value := match p with
        | .from => parseEnvelopeAddress envelope.from
        | .to => parseEnvelopeAddress envelope.to
      value.any fun value => keys.any (addressPart value part)) ^^ isNot
  | .exists headers isNot => (headers.all fun h => message.headersNamed h ≠ []) ^^ isNot
  | .size isOver limit isNot =>
    (if isOver then decide (limit < message.size) else decide (message.size < limit)) ^^ isNot

structure Machine where
  pos : ℕ := 0
  testResult : Bool := false
  implicitKeep : Bool := true
  explicitKeep : Bool := false
  discardRequested : Bool := false
  fileInto : List String := []
  redirects : List String := []
  flags : List String := []

def addFlags (flags newFlags : List String) : List String :=
  newFlags.foldl (fun flags flag =>
    if flags.any (eqIgnoreAsciiCase · flag) then flags else flags ++ [flag]) flags

def Machine.next (m : Machine) : Machine := { m with pos := m.pos + 1 }

/-- One instruction; `none` is the end that `stop` asks for. -/
def step (message : MessageView) (envelope : Envelope) (limits : Limits) (m : Machine) :
    Instruction → Option Machine
  | .test test => some { m.next with testResult := eval message envelope test }
  | .jmp target => some { m with pos := target }
  | .jz target => some (if m.testResult then m.next else { m with pos := target })
  | .jnz target => some (if m.testResult then { m with pos := target } else m.next)
  | .keep => some { m.next with explicitKeep := true }
  | .discard => some { m.next with discardRequested := true, implicitKeep := false }
  | .stop => none
  | .fileInto mailbox => some { m.next with
      implicitKeep := false
      fileInto := if mailbox ∈ m.fileInto then m.fileInto else m.fileInto ++ [mailbox] }
  | .redirect address => some { m.next with
      redirects := if m.redirects.length < limits.maxRedirects ∧
          ¬ m.redirects.any (eqIgnoreAsciiCase · address) then m.redirects ++ [address]
        else m.redirects }
  | .addFlag flags => some { m.next with flags := addFlags m.flags flags }
  | .setFlag flags => some { m.next with flags := addFlags [] flags }
  | .removeFlag removed => some { m.next with
      flags := m.flags.filter fun flag => !removed.any (eqIgnoreAsciiCase · flag) }

section
variable (script : List Instruction) (message : MessageView) (envelope : Envelope) (limits : Limits)

/-- The loop with `cpu` steps left, and whether it stopped because the next one would exceed
the limit. -/
def loop : ℕ → Machine → Machine × Bool
  | 0, m => (m, decide (m.pos < script.length))
  | cpu + 1, m =>
    match script[m.pos]? with
    | none => (m, false)
    | some i =>
      match step message envelope limits m i with
      | none => (m, false)
      | some m => loop cpu m

def Machine.outcome (m : Machine) : Outcome :=
  let keep := m.explicitKeep || m.implicitKeep
  { keep
    discarded := m.discardRequested && !keep && m.fileInto.isEmpty
    fileInto := m.fileInto
    redirects := m.redirects
    flags := m.flags }

def run : Outcome := (loop script message envelope limits limits.cpu {}).1.outcome

/-- The run stops because its steps exceed the limit. -/
def exceedsCpu : Prop := (loop script message envelope limits limits.cpu {}).2 = true

end

/-! ## What a run leaves of the message -/

section
variable (script : List Instruction) (message : MessageView) (envelope : Envelope)

/-- The instructions that are reached in `cpu` steps, which the jumps and the tests decide. -/
def reached : ℕ → ℕ → Bool → List Instruction
  | 0, _, _ => []
  | cpu + 1, pos, testResult =>
    match script[pos]? with
    | none => []
    | some i => i ::
      match i with
      | .stop => []
      | .test test => reached cpu (pos + 1) (eval message envelope test)
      | .jmp target => reached cpu target testResult
      | .jz target => reached cpu (if testResult then pos + 1 else target) testResult
      | .jnz target => reached cpu (if testResult then target else pos + 1) testResult
      | _ => reached cpu (pos + 1) testResult

end

variable {script : List Instruction} {message : MessageView} {envelope : Envelope} {limits : Limits}

/-- What the instructions have done to what decides about the message. -/
structure Machine.Did (m m' : Machine) (is : List Instruction) : Prop where
  kept : m'.explicitKeep = true ↔ m.explicitKeep = true ∨ .keep ∈ is
  filed : m'.fileInto ≠ [] ↔ m.fileInto ≠ [] ∨ ∃ mailbox, .fileInto mailbox ∈ is
  implicit : m'.implicitKeep = true ↔
    m.implicitKeep = true ∧ .discard ∉ is ∧ ∀ mailbox, .fileInto mailbox ∉ is

namespace Machine.Did

theorem nothing (m : Machine) : m.Did m [] := by constructor <;> simp

theorem cons {m m' m'' : Machine} {i : Instruction} {is : List Instruction} (h : m.Did m' [i])
    (h' : m'.Did m'' is) : m.Did m'' (i :: is) := by
  obtain ⟨hk, hf, hi⟩ := h
  obtain ⟨hk', hf', hi'⟩ := h'
  simp only [List.mem_singleton] at hk hf hi
  constructor
  · rw [hk', hk, or_assoc, List.mem_cons]
  · rw [hf', hf, or_assoc, ← exists_or]
    simp only [List.mem_cons]
  · simp only [hi', hi, List.mem_cons, not_or, forall_and, and_assoc, and_left_comm]

variable (script message envelope limits)

theorem step {m m' : Machine} {i : Instruction}
    (hm : Sieve.step message envelope limits m i = some m') : m.Did m' [i] := by
  cases i with
  | stop => cases hm
  | fileInto mailbox =>
    cases hm
    refine ⟨by simp [next], ?_, by simp⟩
    dsimp only
    split
    next hmem => simp [List.ne_nil_of_mem hmem]
    next => simp
  | jz target | jnz target =>
    cases hm
    constructor <;> split <;> simp [next]
  | _ =>
    cases hm
    constructor <;> simp [next]

theorem loop (cpu : ℕ) (m : Machine) : m.Did (Sieve.loop script message envelope limits cpu m).1
    (reached script message envelope cpu m.pos m.testResult) := by
  induction cpu generalizing m with
  | zero => exact nothing m
  | succ cpu ih =>
    rw [Sieve.loop, reached]
    split
    next => exact nothing m
    next i hi =>
      cases i with
      | stop => constructor <;> simp [Sieve.step]
      | jz target | jnz target =>
        simp only [Sieve.step]
        refine cons (step message envelope limits rfl) ?_
        split
        next => exact ih _
        next => exact ih _
      | _ => exact cons (step message envelope limits rfl) (ih _)

end Machine.Did

/-- The message is kept or filed, and not discarded. -/
def Outcome.Kept (o : Outcome) : Prop := (o.keep = true ∨ o.fileInto ≠ []) ∧ o.discarded = false

theorem Machine.Did.outcome_kept_iff {m : Machine} {is : List Instruction}
    (h : ({} : Machine).Did m is) :
    m.outcome.Kept ↔ (.discard ∈ is → .keep ∈ is ∨ ∃ mailbox, .fileInto mailbox ∈ is) := by
  obtain ⟨hkept, hfiled, himplicit⟩ := h
  simp only [Bool.false_eq_true, false_or, true_and, ne_eq, not_true_eq_false] at *
  constructor
  · rintro ⟨hkeep, _⟩ hmem
    simpa [Machine.outcome, hkept, himplicit, hfiled, hmem] using hkeep
  · intro hmem
    -- without a discard the implicit keep stands, unless a fileinto has replaced it
    have hkeep : (m.explicitKeep = true ∨ m.implicitKeep = true) ∨ ¬m.fileInto = [] := by
      rw [hkept, himplicit, hfiled]
      by_cases hd : .discard ∈ is
      · exact (hmem hd).imp_left .inl
      · by_cases hf : ∃ mailbox, .fileInto mailbox ∈ is
        · exact .inr hf
        · exact .inl (.inr ⟨hd, not_exists.mp hf⟩)
    refine ⟨by simpa [Machine.outcome] using hkeep, ?_⟩
    rcases hkeep with (hkeep | hkeep) | hkeep
    · simp [Machine.outcome, hkeep]
    · simp [Machine.outcome, hkeep]
    · simp [Machine.outcome, hkeep]

/-- A run that is cut off keeps the message exactly if it has reached no discard, or a keep or
a fileinto as well. -/
theorem kept_of_cut_iff :
    (exceedsCpu script message envelope limits → (run script message envelope limits).Kept) ↔
      (exceedsCpu script message envelope limits →
        let is := reached script message envelope limits.cpu 0 false
        .discard ∈ is → .keep ∈ is ∨ ∃ mailbox, .fileInto mailbox ∈ is) :=
  imp_congr_right fun _ => (Machine.Did.loop script message envelope limits _ _).outcome_kept_iff

/-- The instructions of `discard; keep;`: cut off between the two, the run discards a message
that the script keeps. -/
theorem discarded_of_cut_discard :
    exceedsCpu [.discard, .keep] ⟨0, []⟩ ⟨"", ""⟩ ⟨1, 4⟩ ∧
      (run [.discard, .keep] ⟨0, []⟩ ⟨"", ""⟩ ⟨1, 4⟩).discarded = true ∧
      (run [.discard, .keep] ⟨0, []⟩ ⟨"", ""⟩ ⟨2, 4⟩).keep = true :=
  ⟨rfl, rfl, rfl⟩

end IrixMail.Sieve
