import IrixMail.Core.IdCalls
import IrixMail.Dav.CalendarQuery
import IrixMail.Dav.Objects
import IrixMail.Directory.AddressRuns
import IrixMail.Directory.Isolation
import IrixMail.Directory.LoginRuns
import IrixMail.Dns.Zone
import IrixMail.Http.ChallengeRuns
import IrixMail.Http.CredentialRuns
import IrixMail.Http.Revocation
import IrixMail.Imap.BodyStructure
import IrixMail.Imap.ConditionalStore
import IrixMail.Imap.CopySurvival
import IrixMail.Imap.Examine
import IrixMail.Imap.Listing
import IrixMail.Imap.LiteralFraming
import IrixMail.Imap.Progress
import IrixMail.Jmap.BlobId
import IrixMail.Jmap.Creations
import IrixMail.Jmap.EmailQuery
import IrixMail.Jmap.Keywords
import IrixMail.Jmap.MailboxState
import IrixMail.Jmap.SearchSnippet
import IrixMail.Mail.CacheRuns
import IrixMail.Mail.Deletions
import IrixMail.Mail.ForwardChains
import IrixMail.Mail.SearchIndex
import IrixMail.Mail.Updates
import IrixMail.ManageSieve.Framing
import IrixMail.Pop3.Quit
import IrixMail.Pop3.Responses
import IrixMail.Sieve.Runtime
import IrixMail.Smtp.Blocklist
import IrixMail.Smtp.Chunking
import IrixMail.Smtp.Completion
import IrixMail.Smtp.Deadlines
import IrixMail.Smtp.Framing
import IrixMail.Smtp.QueueBodies
import IrixMail.Smtp.QueueOnce
import IrixMail.Smtp.Settlement
import IrixMail.Smtp.VacationReplies
