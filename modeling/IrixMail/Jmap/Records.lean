import IrixMail.Core.Error

/-! The record that is kept of an EmailSubmission. -/

namespace IrixMail.Jmap

structure SubmissionRecord where
  id : ℕ
  emailId : ℕ
  undoStatus : String
  deriving DecidableEq

end IrixMail.Jmap
