import CommandScript.FileTree.Run
import CommandScript.Main
import CommandScript.Proofs.Results
import CommandScript.Proofs.Names
import CommandScript.Proofs.ArgumentReading
import CommandScript.Proofs.ArgumentGrammar
import CommandScript.Proofs.LineReading
import CommandScript.Proofs.LineFraming
import CommandScript.Proofs.Utf8RoundTrip
import CommandScript.Proofs.QuotedTokens
import CommandScript.Proofs.ScriptText
import CommandScript.Proofs.PrintedScripts
import CommandScript.Proofs.FrontEnds
import CommandScript.Proofs.ScriptCommands
import CommandScript.Proofs.Provenance
import CommandScript.Proofs.RunOutcome
import CommandScript.Proofs.SettingsOverlay
import CommandScript.Proofs.FileAppending
import CommandScript.Proofs.JsonReading
import CommandScript.Proofs.AuditLog
import CommandScript.Proofs.ScriptPieces
import CommandScript.Proofs.DecodingCuts
import CommandScript.Proofs.MendedStreams
import CommandScript.Proofs.LineStyles
import CommandScript.Proofs.RunEffects
import CommandScript.Proofs.FirstFault
import CommandScript.Proofs.RelaxedNames
import CommandScript.Proofs.JsonGrammar
import CommandScript.Proofs.PrintedStreams
import CommandScript.Proofs.CanonicalPaths
import CommandScript.Proofs.Replay
import CommandScript.Proofs.DraftHistory
import CommandScript.Proofs.LineSymbols
import CommandScript.Proofs.DoubleDash
import CommandScript.Proofs.DashedLists
import CommandScript.Proofs.TokenGaps
import CommandScript.Proofs.SettledTokens
import CommandScript.Proofs.FailureLines
import CommandScript.Proofs.NameGrammar
import CommandScript.Proofs.SettingsPlacement
import CommandScript.Proofs.Truncation
import CommandScript.Proofs.NameCase
