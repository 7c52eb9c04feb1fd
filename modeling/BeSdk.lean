import BeSdk.Lib.Agreement
import BeSdk.Lib.Binary64
import BeSdk.Lib.Dict
import BeSdk.Lib.Exec
import BeSdk.Lib.Fallible
import BeSdk.Lib.History
import BeSdk.Lib.Keyset
import BeSdk.Lib.Registry
import BeSdk.Lib.RowLocks
import BeSdk.Lib.Transcript
import BeSdk.Lib.Tri
import BeSdk.Lib.TwoRuns
import BeSdk.Lib.Words
import BeSdk.Py.Ast
import BeSdk.Py.Base64
import BeSdk.Py.Codecs
import BeSdk.Py.Datetime
import BeSdk.Py.DatetimeTheorems
import BeSdk.Py.Decimal
import BeSdk.Py.Float
import BeSdk.Py.Json
import BeSdk.Py.JsonTheorems
import BeSdk.Py.Surrogates
import BeSdk.Py.Sha256
import BeSdk.Py.Text
import BeSdk.Errs
import BeSdk.Exc
import BeSdk.Errwire
import BeSdk.ErrwireTheorems
import BeSdk.Errwire.Foreign
import BeSdk.Canon
import BeSdk.Py.PlainDecimal
import BeSdk.CanonDecimal
import BeSdk.CanonTheorems
import BeSdk.CanonInstant
import BeSdk.CanonSets
import BeSdk.Records
import BeSdk.RecordsTheorems
import BeSdk.OpenTheorems
import BeSdk.RecordSchemas
import BeSdk.Audit.Record
import BeSdk.Audit.RecordTheorems
import BeSdk.Audit.Purge
import BeSdk.Audit.PurgeTheorems
import BeSdk.Audit.Denial
import BeSdk.Audit.DenialTheorems
import BeSdk.Audit.Transfer
import BeSdk.Audit.TransferTheorems
import BeSdk.Authz.Defs
import BeSdk.Authz.DefinitionRecords
import BeSdk.Authz.DefinitionTheorems
import BeSdk.Authz.DefinitionSchemas
import BeSdk.Authz.AcceptTheorems
import BeSdk.Authz.Segment
import BeSdk.Authz.SegmentTheorems
import BeSdk.Authz.View
import BeSdk.Authz.ViewTheorems
import BeSdk.Authz.Loop
import BeSdk.Authz.StaleTheorems
import BeSdk.Authz.Match
import BeSdk.Authz.GrantTheorems
import BeSdk.Authz.AnswerTheorems
import BeSdk.Authz.Plan
import BeSdk.Authz.PlanTheorems
import BeSdk.Authz.MeaningTheorems
import BeSdk.Authz.FormTheorems
import BeSdk.Authz.DigestTheorems
import BeSdk.Authz.Subject
import BeSdk.Authz.FieldTheorems
import BeSdk.Authz.PlanReads
import BeSdk.Sql.Select
import BeSdk.Sql.SelectTheorems
import BeSdk.Lists
import BeSdk.Lists.Cursor
import BeSdk.Lists.Conditions
import BeSdk.Lists.Pages
import BeSdk.Lists.Walk
import BeSdk.Lists.Resume
import BeSdk.Lists.Secrecy
import BeSdk.Calls.Policy
import BeSdk.Calls.BreakerTheorems
import BeSdk.Calls.Outcome
import BeSdk.Calls.Client
import BeSdk.Calls.ClientTheorems
import BeSdk.Calls.AttemptTheorems
import BeSdk.Reqctx
import BeSdk.Http
import BeSdk.HttpTheorems
import BeSdk.Events.Core
import BeSdk.Events.Subscription
import BeSdk.Events.SubscriptionTheorems
import BeSdk.Events.Queue
import BeSdk.Events.QueueTheorems
import BeSdk.Events.OrderTheorems
import BeSdk.Events.LeaseTheorems
import BeSdk.Events.Consumer
import BeSdk.Events.ConsumerTheorems
import BeSdk.Events.Workers
import BeSdk.Events.WorkersTheorems
import BeSdk.Events.Outbox
import BeSdk.Events.OutboxTheorems
import BeSdk.Events.Forward
import BeSdk.Events.Envelope
import BeSdk.Events.EnvelopeTheorems
import BeSdk.Events.SizeTheorems
import BeSdk.Events.Causation
import BeSdk.Events.CausationTheorems
import BeSdk.Events.ForwardTheorems
import BeSdk.Events.Wake
import BeSdk.Events.WakeTheorems
import BeSdk.Events.Pipeline
import BeSdk.Events.PipelineTheorems
import BeSdk.Events.Jetstream
import BeSdk.Events.NamesTheorems
import BeSdk.Config
import BeSdk.ConfigTheorems
import BeSdk.MergeSafety
import BeSdk.MergeSafety.Paths
import BeSdk.MergeSafety.Visits
import BeSdk.MergeSafetyTheorems
import BeSdk.Db.Settings
import BeSdk.Db.SettingsTheorems
import BeSdk.Host
import BeSdk.Shell
import BeSdk.ShellTheorems
import BeSdk.ShellTotality
import BeSdk.Cutoff
import BeSdk.CutoffTheorems
import BeSdk.Db.Docno
import BeSdk.Db.DocnoTheorems
import BeSdk.Db.Migrate
import BeSdk.Db.MigrateTheorems
import BeSdk.Sql.Lexer
import BeSdk.Sql.LexerTheorems
import BeSdk.Sql.LexerText
import BeSdk.Db.Lint
import BeSdk.Db.LintTheorems
import BeSdk.Db.LintStatements
import BeSdk.Db.Session
import BeSdk.Db.SessionTheorems
import BeSdk.Db.Tx
import BeSdk.Db.TxTheorems
import BeSdk.Identity.KeySet
import BeSdk.Identity.KeySetTheorems
import BeSdk.Identity.Token
import BeSdk.Identity.TokenTheorems
import BeSdk.System
import BeSdk.SystemTheorems
import BeSdk.Guard
import BeSdk.GuardTheorems
import BeSdk.Db.Pool
import BeSdk.Db.PoolTheorems
