import IrixMail.Smtp.Steps

/-!
# Chunks and the commands after them

The octets of a chunk follow `BDAT` without waiting for the reply, so that they
must be taken whatever the reply is. The gate of a submission session answers
before it looks at the command and takes none.
-/

namespace IrixMail.Smtp
open Library Prog Store Mail Directory

variable {lib : Libraries} {line : Bytes} {s : Session} {n : ℕ} {isLast : Bool}

def Session.withWire (s : Session) (wire : Wire) : Session := { s with wire := wire }

/-- Whatever is on the wire, the session closes the connection or goes on after
exactly `n` octets. -/
def FramesChunk (lib : Libraries) (s : Session) (line : Bytes) (n : ℕ) : Prop :=
  ∀ (answers : Answers) (wire : Wire) (t : Replies)
    (flow : Option Flow) (s' : Session),
    Exec ((s.withWire wire).dispatch lib answers line) t (.ok (flow, s')) →
      flow = some .close ∨ n ≤ wire.incoming.length ∧ s'.wire.incoming = wire.incoming.drop n

theorem returns_dispatch_bdat {answers : Answers} (hverb : Verb.fromLine line = .bdat)
    (hparse : parseCommand lib (terminated line) = .ok (.bdat n isLast))
    (hgate : s.submissionGate = none) :
    Returns (fun r => r.1 = some .close ∨
      n ≤ s.wire.incoming.length ∧ r.2.wire.incoming = s.wire.incoming.drop n)
      (s.dispatch lib answers line) := by
  have hreceive : Returns (ChunkReceived s n isLast) (s.receive lib answers line) := by
    simp only [Session.receive, hverb]
    exact Session.returns_onBdat hparse hgate
  refine hreceive.bind fun step hstep => ?_
  cases hstep with
  | refused hn _ => exact .ret (.inr ⟨hn, rfl⟩)
  | tooLarge hn => exact .ret (.inr ⟨hn, rfl⟩)
  | stored _ hn _ => exact .ret (.inr ⟨hn, rfl⟩)
  | last hn _ _ =>
    refine (Session.returns_conclude _).bind fun s' hs' => .ret (.inr ⟨hn, ?_⟩)
    obtain ⟨_, _, ⟨_, _, rfl⟩, rfl⟩ := hs'
    rfl
  | closed s' => exact .ret (.inl rfl)

theorem dispatch_bdat_gated (s : Session) (answers : Answers) (hverb : Verb.fromLine line = .bdat)
    (hmode : s.mode = .submission) (hauth : s.data.authenticated = false) :
    s.dispatch lib answers line =
      checked (s.write authRequired) >>= fun s' => .ret (none, s') := by
  have hgate : s.submissionGate = some authRequired := by
    simp [Session.submissionGate, guardSubmission, hmode, hauth]
  simp only [Session.dispatch, Session.receive, hverb, Session.onBdat, hgate, Session.answer]
  cases s.write authRequired <;> rfl

/-- The chunk of a `BDAT` is taken, unless a submission session that has not
authenticated turns it away. -/
theorem chunk_framing_iff (hverb : Verb.fromLine line = .bdat)
    (hparse : parseCommand lib (terminated line) = .ok (.bdat n isLast)) :
    FramesChunk lib s line n ↔
      (s.mode = .submission → s.data.authenticated = false → n = 0) := by
  constructor
  · intro hframes hmode hauth
    -- the octets are still there after the reply
    let wire : Wire := { incoming := List.replicate n 0, takes := 1 }
    have hexec : Exec ((s.withWire wire).dispatch lib .plain line) []
        (.ok (none, (s.withWire wire).said authRequired)) := by
      rw [dispatch_bdat_gated (s.withWire wire) .plain hverb hmode hauth]
      exact .ret _
    rcases hframes .plain wire [] none _ hexec with hclose | ⟨-, hincoming⟩
    · cases hclose
    · have hlen := congrArg List.length hincoming
      simpa [Session.said, Session.withWire, wire] using hlen
  · intro hzero answers wire t flow s' hexec
    by_cases hopen : s.mode = .submission → s.data.authenticated = true
    · have hgate : (s.withWire wire).submissionGate = none :=
        Session.submissionGate_eq_none.2 hopen
      exact returns_dispatch_bdat hverb hparse hgate _ _ hexec
    · rw [Classical.not_imp, Bool.not_eq_true] at hopen
      obtain rfl := hzero hopen.1 hopen.2
      rw [dispatch_bdat_gated (s.withWire wire) answers hverb hopen.1 hopen.2] at hexec
      have hsaid : Returns
          (fun r : Option Flow × Session => r.2 = (s.withWire wire).said authRequired)
          (checked ((s.withWire wire).write authRequired) >>= fun s' => .ret (none, s')) :=
        returns_checked fun s₁ hs₁ => .ret (Session.write_eq_ok hs₁)
      obtain rfl := hsaid _ _ hexec
      exact .inr ⟨Nat.zero_le _, rfl⟩

/-- A submission session that has not authenticated gets `BDAT 6` and a chunk that
reads `QUIT`. -/
def gatedChunk : Session where
  wire.incoming := [66, 68, 65, 84, 32, 54, 13, 10, 81, 85, 73, 84, 13, 10]
  wire.takes := 2
  mode := .submission

theorem gatedChunk_runs_as_command :
    (((gatedChunk.serve .plain (fun _ => .plain) 3).run (machine id)
      (.empty (.new 0) 0)).1.map fun r => (r.1, r.2.wire.sent)) =
      .ok (.close, [quitReply, authRequired]) := by
  decide +kernel

theorem inboundChunk_framed :
    FramesChunk .plain { wire := { incoming := [] } } (asciiBytes "BDAT 6") 6 :=
  (chunk_framing_iff (by decide) (by rfl)).2 (by simp)

end IrixMail.Smtp
