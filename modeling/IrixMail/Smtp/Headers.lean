import IrixMail.Smtp.Commands
import IrixMail.Smtp.Dsn

/-! Header fields that are read from an incoming message or put before it. -/

namespace IrixMail.Smtp

def eqIgnoreCase (xs ys : Bytes) : Bool := xs.map toAsciiUppercase = ys.map toAsciiUppercase

/-! ## Loops -/

def looping : String := "450 4.4.6 Too many Received headers, a mail loop is suspected\r\n"
def defaultMaxReceived : ℕ := 50

def isReceivedField (line : Bytes) : Bool :=
  line.contains 58 && eqIgnoreCase (line.takeWhile (· != 58)) (asciiBytes "received")

def countReceived : List Bytes → ℕ
  | [] => 0
  | line :: rest =>
    match stripCrlf line with
    | [] => 0
    | b :: line =>
      (if !isBlank b && isReceivedField (b :: line) then 1 else 0) + countReceived rest

def receivedCount (raw : Bytes) : ℕ := countReceived (raw.splitOn lf)

def isLooping (raw : Bytes) (maxReceived : ℕ) : Bool :=
  0 < maxReceived ∧ maxReceived < receivedCount raw

/-! ## Inbound -/

def upperHex (n : ℕ) : String := String.ofList ((Nat.toDigits 16 n).map Char.toUpper)

def buildReceived (helo remoteIp host : String) (tls : Bool) (id now : ℕ) : Bytes :=
  utf8Bytes ("Received: from " ++ helo ++ " [" ++ remoteIp ++ "]\r\n\tby " ++ host ++
    " (IRIXMAIL) with " ++ (if tls then "ESMTPS" else "ESMTP") ++ " id " ++ upperHex id ++
    ";\r\n\t" ++ (Rfc822Date.fromTimestamp (asI64 now)).format ++ "\r\n")

def prependHeader (field value : String) (raw : Bytes) : Bytes :=
  utf8Bytes (field ++ ": " ++ value ++ "\r\n") ++ raw

/-! ## Submission -/

def headerBlock : Bytes → Bytes
  | [] => []
  | b :: raw => if [cr, lf, cr, lf].isPrefixOf (b :: raw) then [cr, lf] else b :: headerBlock raw

def hasField (block : Bytes) (name : Bytes) : Bool :=
  ((block.splitOn lf).map stripCrlf).any fun row =>
    !(row.head?.any isBlank) && row[name.length]? == some 58 &&
      eqIgnoreCase (row.take name.length) name

def messageId (raw : Bytes) (host : String) (now : ℕ) : String :=
  let acc := raw.foldl (fun acc byte => (acc * 31 + byte.toNat) % 2 ^ 64) now
  "<" ++ hexPadded 0 now ++ "." ++ hexPadded 16 acc ++ "@" ++ host ++ ">"

def completeHeaders (raw : Bytes) (host : String) (now : ℕ) : Bytes :=
  let block := headerBlock raw
  (if hasField block (asciiBytes "date") then []
    else utf8Bytes ("Date: " ++ (Rfc822Date.fromTimestamp (asI64 now)).format ++ "\r\n")) ++
  (if hasField block (asciiBytes "message-id") then []
    else utf8Bytes ("Message-ID: " ++ messageId raw host now ++ "\r\n")) ++
  (if hasField block (asciiBytes "mime-version") then [] else utf8Bytes "MIME-Version: 1.0\r\n") ++
  raw

def fromDomain (lib : Libraries) (raw : Bytes) : Option String :=
  (lib.originators raw).bind fun addresses =>
    addresses.findSome? fun address =>
      match rsplitOnce '@' address with
      | some (_, domain) => if domain = "" then none else some domain
      | none => none

end IrixMail.Smtp
