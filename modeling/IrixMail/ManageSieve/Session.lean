import IrixMail.Directory.Login
import IrixMail.Library.Promises
import IrixMail.ManageSieve.Parser

/-!
# A ManageSieve session

What a session reads from its client, octet by octet, and what it does with the script
registry. The login, the registry and the Sieve compiler are behind `Backend`; an operation
of theirs that fails with an error ends the session. A write that fails ends the session
like a read that fails, and is left out.
-/

namespace IrixMail.ManageSieve
open Library
open Directory (Account StoredScript LoginAttempt)

def maxLineLength : ℕ := 8192
def maxScriptSize : ℕ := 128 * 1024
def maxScripts : ℕ := 32

inductive Flow
  | close
  | upgrade
  deriving DecidableEq

inductive State
  | notAuthenticated
  | authenticated
  deriving DecidableEq

structure Backend (σ : Type) where
  attemptLogin : σ → String → String → Option (LoginAttempt × σ)
  list : σ → ℕ → Option (List StoredScript)
  create : σ → ℕ → String → String → Option σ
  /-- The new name, source and rules, as far as they change. -/
  update : σ → ℕ → String → Option String → Option String → Option (Option String) → Option σ
  setActive : σ → ℕ → Option String → Option σ
  destroy : σ → ℕ → String → Option σ

/-- What the session takes from other crates. -/
structure Libraries where
  lossy : Bytes → String
  decodeBase64 : String → Option Bytes
  /-- Why the Sieve compiler refuses a script, if it does. -/
  compileError : String → Option String
  scriptSource : StoredScript → String

structure Session (σ : Type) where
  state : State
  isTls : Bool
  directory : Option (Backend σ)
  account : Option Account
  world : σ

/-! ## Reading and writing -/

/-- Where in the session a line is read. -/
inductive Place
  | command
  /-- After a literal, which is UTF-8 or not. -/
  | continued (valid : Bool)
  | sasl
  deriving DecidableEq

inductive Event
  /-- `ended` when the line ends in LF, and not with the stream. -/
  | line (place : Place) (text : Bytes) (ended : Bool)
  | literal (octets : Bytes)
  | said (text : String)
  deriving DecidableEq

abbrev Wire := Reader UInt8 Event

def write (text : String) : Wire Unit := .emit (.said text)

def quoted (text : String) : String :=
  let escape (c : Char) : List Char :=
    if c = '"' ∨ c = '\\' then ['\\', c] else if c = '\r' ∨ c = '\n' then [' '] else [c]
  "\"" ++ String.ofList (text.toList.flatMap escape) ++ "\""

def respond (status : String) (code : Option String) (text : String) : Wire Unit :=
  match code with
  | some code => write (status ++ " (" ++ code ++ ") " ++ quoted text ++ "\r\n")
  | none => write (status ++ " " ++ quoted text ++ "\r\n")

def writeChallenge (challenge : String) : Wire Unit := write (quoted challenge ++ "\r\n")

def readLine (place : Place) : Wire (Option Bytes) :=
  .line (· ≠ lf) maxLineLength (.line place)

def readExact (length : ℕ) : Wire Bytes := .exactly length .literal

def orClose {α : Type} : Option α → Wire α
  | some a => pure a
  | none => .close

def sieveCapabilities : List String :=
  ["fileinto", "envelope", "imap4flags", "encoded-character", "comparator-i;octet"]

section
variable {σ : Type} (lib : Libraries)

def sendCapabilities (s : Session σ) : Wire Unit :=
  write ("\"IMPLEMENTATION\" \"IRIXMAIL\"\r\n" ++
    "\"SIEVE\" \"" ++ " ".intercalate sieveCapabilities ++ "\"\r\n" ++
    "\"SASL\" \"" ++ (if s.isTls then "PLAIN LOGIN" else "") ++ "\"\r\n" ++
    (if s.isTls then "" else "\"STARTTLS\"\r\n") ++
    "\"MAXREDIRECTS\" \"4\"\r\n" ++ "\"VERSION\" \"1.0\"\r\n")

/-! ## Literals -/

def resolveFrom : ℕ → List Token → Wire (Option (List Token))
  | 0, _ => .loopForever
  | n + 1, tokens =>
    match tokens.getLast? with
    | some (.literal length) =>
      if maxScriptSize < length then do
        respond "BYE" none "literal too large"
        .close
      else do
        let content ← readExact length
        match ← readLine (.continued (fromUtf8 content).isSome) with
        | none => pure none
        | some rest =>
          match tokenizeLine lib.lossy (stripCr rest) with
          | .error e => do
            respond "NO" none e.message
            pure none
          | .ok continuation =>
            match fromUtf8 content with
            | none => do
              respond "NO" none "script is not valid utf-8"
              pure none
            | some content => resolveFrom n (tokens.dropLast ++ [.str content] ++ continuation)
    | _ => pure (some tokens)

def resolveLiterals (tokens : List Token) : Wire (Option (List Token)) :=
  .rounds fun n => resolveFrom lib n tokens

/-! ## AUTHENTICATE -/

inductive Mechanism
  | plain
  | login
  | unsupported
  deriving DecidableEq

def Mechanism.parse (name : String) : Mechanism :=
  if eqIgnoreAsciiCase name "PLAIN" then .plain
  else if eqIgnoreAsciiCase name "LOGIN" then .login
  else .unsupported

def decodeBase64 (input : String) : Option String := do
  let bytes ← lib.decodeBase64 (trim input)
  fromUtf8 bytes

/-- `splitn(3, NUL)`: the user and the password, of which only the password may be empty. -/
def decodePlain (input : String) : Option (String × String) := do
  let decoded ← decodeBase64 lib input
  let nul := Char.ofNat 0
  match decoded.toList.dropWhile (· ≠ nul) with
  | [] => none
  | _ :: rest =>
    match rest.dropWhile (· ≠ nul) with
    | [] => none
    | _ :: password =>
      let authcid := rest.takeWhile (· ≠ nul)
      if authcid = [] ∨ nul ∈ password then none
      else some (String.ofList authcid, String.ofList password)

def challengeUsername : String := "VXNlcm5hbWU6"
def challengePassword : String := "UGFzc3dvcmQ6"

def readAuthResponse : Wire (Option String) := do
  match ← readLine .sasl with
  | none => pure none
  | some line =>
    if stripCr line = [star] then pure none
    else
      match tokenizeLine lib.lossy (stripCr line) with
      | .error _ => pure none
      | .ok tokens =>
        match tokens.head?.bind Token.asStr with
        | none => pure none
        | some value => pure (if value = "*" then none else some value)

def attempt (s : Session σ) (user password : String) : Wire (Session σ) := do
  match s.directory with
  | none => do
    respond "NO" none "authentication failed"
    pure s
  | some directory => do
    let (outcome, world) ← orClose (directory.attemptLogin s.world user password)
    let s := { s with world }
    match outcome with
    | .granted account _ => do
      respond "OK" none "Authenticated"
      pure { s with account := some account, state := .authenticated }
    | .denied => do
      respond "NO" none "authentication failed"
      pure s
    | .throttled => do
      respond "NO" (some "TRYLATER") "too many attempts, try again later"
      pure s

def refuse (s : Session σ) (code : Option String) (text : String) : Wire (Session σ) := do
  respond "NO" code text
  pure s

def completed (s : Session σ) (text : String) : Wire (Session σ) := do
  respond "OK" none text
  pure s

def authenticatePlain (s : Session σ) (initial : Option String) : Wire (Session σ) := do
  let response ← match initial with
    | some initial => pure (some initial)
    | none => do
      writeChallenge ""
      readAuthResponse lib
  match response with
  | none => refuse s none "authentication cancelled"
  | some response =>
    match decodePlain lib response with
    | some (user, password) => attempt s user password
    | none => refuse s none "invalid SASL response"

def authenticateLogin (s : Session σ) : Wire (Session σ) := do
  writeChallenge challengeUsername
  match ← readAuthResponse lib with
  | none => refuse s none "authentication cancelled"
  | some user => do
    writeChallenge challengePassword
    match ← readAuthResponse lib with
    | none => refuse s none "authentication cancelled"
    | some password =>
      match decodeBase64 lib user, decodeBase64 lib password with
      | some user, some password => attempt s user password
      | _, _ => refuse s none "invalid SASL response"

def argument (tokens : List Token) (index : ℕ) : Option String := tokens[index]?.bind Token.asStr

def runAuthenticate (s : Session σ) (tokens : List Token) : Wire (Session σ) :=
  if !s.isTls then refuse s (some "ENCRYPT-NEEDED") "AUTHENTICATE requires TLS"
  else if s.state = .authenticated then refuse s none "Already authenticated"
  else
    match argument tokens 1 with
    | none => refuse s none "AUTHENTICATE requires a mechanism"
    | some mechanism =>
      match Mechanism.parse mechanism with
      | .unsupported => refuse s none "unsupported mechanism"
      | .plain => authenticatePlain lib s (argument tokens 2)
      | .login => authenticateLogin lib s

/-! ## Scripts -/

def accountId (s : Session σ) : ℕ := (s.account.map (·.id)).getD 0

def scripts (s : Session σ) : Wire (List StoredScript) := do
  let registry ← orClose s.directory
  orClose (registry.list s.world (accountId s))

def getByName (s : Session σ) (name : String) : Wire (Option StoredScript) := do
  let scripts ← scripts s
  pure (scripts.find? (·.name = name))

def change (s : Session σ) (f : Backend σ → σ → Option σ) : Wire (Session σ) := do
  let registry ← orClose s.directory
  let world ← orClose (f registry s.world)
  pure { s with world }

def parseU64 (text : String) : Option ℕ :=
  let digits := match text.toList with
    | '+' :: rest => rest
    | chars => chars
  if digits = [] ∨ !digits.all Char.isDigit then none
  else
    let value := digits.foldl (fun n c => 10 * n + (c.toNat - 48)) 0
    if value < 2 ^ 64 then some value else none

def noScript (s : Session σ) : Wire (Session σ) :=
  refuse s (some "NONEXISTENT") "no script by that name"

def runHavespace (s : Session σ) (tokens : List Token) : Wire (Session σ) :=
  match argument tokens 1, (argument tokens 2).bind parseU64 with
  | some name, some size =>
    if maxScriptSize < size then refuse s (some "QUOTA/MAXSIZE") "script is too large"
    else do
      let scripts ← scripts s
      if !scripts.any (·.name = name) ∧ maxScripts ≤ scripts.length then
        refuse s (some "QUOTA") "too many scripts"
      else completed s "Havespace completed"
  | _, _ => refuse s none "HAVESPACE requires a name and a size"

def runPutscript (s : Session σ) (tokens : List Token) : Wire (Session σ) :=
  match argument tokens 1, argument tokens 2 with
  | some name, some content =>
    if name = "" then refuse s none "a script needs a name"
    else
      match lib.compileError content with
      | some error => refuse s none error
      | none => do
        match ← getByName s name with
        | some existing => do
          let keepsRules : Bool := existing.rules.isSome ∧ lib.scriptSource existing = content
          let s ← change s fun registry world =>
            registry.update world (accountId s) existing.id none (some content)
              (if keepsRules then none else some none)
          completed s "Putscript completed"
        | none => do
          let scripts ← scripts s
          if maxScripts ≤ scripts.length then refuse s (some "QUOTA") "too many scripts"
          else do
            let s ← change s fun registry world =>
              registry.create world (accountId s) name content
            completed s "Putscript completed"
  | _, _ => refuse s none "PUTSCRIPT requires a name and a script"

def runListscripts (s : Session σ) : Wire (Session σ) := do
  let scripts ← scripts s
  write (String.join (scripts.map fun script =>
    quoted script.name ++ (if script.active then " ACTIVE" else "") ++ "\r\n"))
  completed s "Listscripts completed"

def runSetactive (s : Session σ) (tokens : List Token) : Wire (Session σ) :=
  match argument tokens 1 with
  | none => refuse s none "SETACTIVE requires a name"
  | some name =>
    if name = "" then do
      let s ← change s fun registry world => registry.setActive world (accountId s) none
      completed s "Setactive completed"
    else do
      match ← getByName s name with
      | none => noScript s
      | some script => do
        let s ← change s fun registry world =>
          registry.setActive world (accountId s) (some script.id)
        completed s "Setactive completed"

def runGetscript (s : Session σ) (tokens : List Token) : Wire (Session σ) :=
  match argument tokens 1 with
  | none => refuse s none "GETSCRIPT requires a name"
  | some name => do
    match ← getByName s name with
    | none => noScript s
    | some script => do
      let source := lib.scriptSource script
      write ("\x7b" ++ toString source.utf8ByteSize ++ "\x7d\r\n" ++ source ++ "\r\n")
      completed s "Getscript completed"

def runDeletescript (s : Session σ) (tokens : List Token) : Wire (Session σ) :=
  match argument tokens 1 with
  | none => refuse s none "DELETESCRIPT requires a name"
  | some name => do
    match ← getByName s name with
    | none => noScript s
    | some script =>
      if script.active then refuse s (some "ACTIVE") "you may not delete the active script"
      else do
        let s ← change s fun registry world => registry.destroy world (accountId s) script.id
        completed s "Deletescript completed"

def runRenamescript (s : Session σ) (tokens : List Token) : Wire (Session σ) :=
  match argument tokens 1, argument tokens 2 with
  | some source, some target => do
    match ← getByName s source with
    | none => noScript s
    | some script => do
      if (← getByName s target).isSome then
        refuse s (some "ALREADYEXISTS") "a script by that name exists"
      else do
        let s ← change s fun registry world =>
          registry.update world (accountId s) script.id (some target) none none
        completed s "Renamescript completed"
  | _, _ => refuse s none "RENAMESCRIPT requires two names"

def runCheckscript (s : Session σ) (tokens : List Token) : Wire (Session σ) :=
  match argument tokens 1 with
  | none => refuse s none "CHECKSCRIPT requires a script"
  | some content =>
    match lib.compileError content with
    | some error => refuse s none error
    | none => completed s "Checkscript completed"

/-! ## The loop -/

inductive Verb
  | capability | starttls | authenticate | logout | noop | unauthenticate | havespace | putscript
  | listscripts | setactive | getscript | deletescript | renamescript | checkscript | unknown
  deriving DecidableEq

def verbs : List (String × Verb) :=
  [("CAPABILITY", .capability), ("STARTTLS", .starttls), ("AUTHENTICATE", .authenticate),
    ("LOGOUT", .logout), ("NOOP", .noop), ("UNAUTHENTICATE", .unauthenticate),
    ("HAVESPACE", .havespace), ("PUTSCRIPT", .putscript), ("LISTSCRIPTS", .listscripts),
    ("SETACTIVE", .setactive), ("GETSCRIPT", .getscript), ("DELETESCRIPT", .deletescript),
    ("RENAMESCRIPT", .renamescript), ("CHECKSCRIPT", .checkscript)]

def Verb.fromWord (word : String) : Verb :=
  ((verbs.find? fun entry => eqIgnoreAsciiCase entry.1 word).map Prod.snd).getD .unknown

def Verb.needsAuth : Verb → Bool
  | havespace | putscript | listscripts | setactive | getscript | deletescript | renamescript
  | checkscript => true
  | _ => false

def runNoop (s : Session σ) (tokens : List Token) : Wire (Session σ) :=
  match argument tokens 1 with
  | some tag => do
    respond "OK" (some ("TAG " ++ quoted tag)) "Done"
    pure s
  | none => completed s "NOOP completed"

def runUnauthenticate (s : Session σ) : Wire (Session σ) :=
  if s.state = .authenticated then
    completed { s with account := none, state := .notAuthenticated } "Unauthenticate completed"
  else refuse s none "Not authenticated"

def runCommand (s : Session σ) (tokens : List Token) : Verb → Wire (Session σ)
  | .capability => do
    sendCapabilities s
    completed s "Capability completed"
  | .authenticate => runAuthenticate lib s tokens
  | .noop => runNoop s tokens
  | .unauthenticate => runUnauthenticate s
  | .havespace => runHavespace s tokens
  | .putscript => runPutscript lib s tokens
  | .listscripts => runListscripts s
  | .setactive => runSetactive s tokens
  | .getscript => runGetscript lib s tokens
  | .deletescript => runDeletescript s tokens
  | .renamescript => runRenamescript s tokens
  | .checkscript => runCheckscript lib s tokens
  | .starttls | .logout | .unknown => refuse s none "unknown command"

def dispatch (s : Session σ) (tokens : List Token) : Wire (Session σ × Option Flow) :=
  let verb := Verb.fromWord ((tokens.head?.bind Token.asStr).getD "")
  if verb.needsAuth ∧ s.state ≠ .authenticated then do
    let s ← refuse s none "Authenticate first"
    pure (s, none)
  else if verb = .starttls ∧ s.isTls then do
    let s ← refuse s none "TLS already active"
    pure (s, none)
  else if verb = .starttls then do
    let s ← completed s "Begin TLS negotiation now"
    pure (s, some .upgrade)
  else if verb = .logout then do
    let s ← completed s "Bye"
    pure (s, some .close)
  else do
    let s ← runCommand lib s tokens verb
    pure (s, none)

def serveLine (s : Session σ) (line : Bytes) : Wire (Session σ × Option Flow) :=
  match tokenizeLine lib.lossy (stripCr line) with
  | .error e => do
    let s ← refuse s none e.message
    pure (s, none)
  | .ok tokens => do
    match ← resolveLiterals lib tokens with
    | none | some [] => pure (s, none)
    | some tokens => dispatch lib s tokens

def serveFrom : ℕ → Session σ → Wire Flow
  | 0, _ => .loopForever
  | n + 1, s => do
    match ← readLine .command with
    | none => pure .close
    | some line =>
      match ← serveLine lib s line with
      | (_, some flow) => pure flow
      | (s, none) => serveFrom n s

def run (s : Session σ) : Wire Flow := do
  sendCapabilities s
  respond "OK" none "IRIXMAIL ManageSieve ready"
  .rounds fun n => serveFrom lib n s

end
end IrixMail.ManageSieve
