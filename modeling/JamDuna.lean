import JamDuna.Accumulation.Outer
import JamDuna.Accumulation.PrivilegeMerge
import JamDuna.Accumulation.ProvidedPreimages
import JamDuna.Accumulation.Threshold
import JamDuna.Accumulation.Workers
import JamDuna.Grandpa.Precommits
import JamDuna.Pvm.BatchBalances
import JamDuna.Pvm.CodeLoading
import JamDuna.Pvm.Division
import JamDuna.Pvm.HostCrashes
import JamDuna.Pvm.NarrowOutcomes
import JamDuna.Pvm.OperandAgreement
import JamDuna.Pvm.RefineCalls
import JamDuna.Safrole.Persist
import JamDuna.Safrole.TicketRing
import JamDuna.StateDB.AnchorCoherence
import JamDuna.StateDB.DisputeTotal
import JamDuna.StateDB.DisputeWellFormed
import JamDuna.StateDB.GuarantorIdentity
import JamDuna.StateDB.JudgementRuns
import JamDuna.StateDB.NoShows
import JamDuna.StateDB.OffendersMark
import JamDuna.StateDB.PreimageStatistics
import JamDuna.Storage.Overlay
import JamDuna.Storage.PagedContents
import JamDuna.Storage.SetRoot
import JamDuna.Storage.SlotKeys
import JamDuna.Storage.TrieProof
import JamDuna.Trie.Justification
import JamDuna.Trie.PageProofs
import JamDuna.Types.Truncation
