import RegexDraft.Delimited
import RegexDraft.Description
import RegexDraft.Draft.History
import RegexDraft.Text.Group
import RegexDraft.Text.Nesting
import RegexDraft.Proofs.EscapedText
import RegexDraft.Proofs.EscapedForm
import RegexDraft.Proofs.ClosedPattern
import RegexDraft.Proofs.GroupNesting
import RegexDraft.Proofs.SettledFragments
import RegexDraft.Proofs.RunComposition
import RegexDraft.Proofs.FlagOrder
import RegexDraft.Proofs.LastSlash
import RegexDraft.Proofs.DigitClass
import RegexDraft.Proofs.BoundReach
import RegexDraft.Proofs.NegatedClass
import RegexDraft.Proofs.BoundAgreement
import RegexDraft.Proofs.CountedQuantifier
import RegexDraft.Proofs.LookaroundBody
import RegexDraft.Proofs.InsertionHistory
import RegexDraft.Proofs.Replay
import RegexDraft.Proofs.FlagText
import RegexDraft.Proofs.UniqueDescription
