import SwitchHoist.Alignment
import SwitchHoist.CommandLine
import SwitchHoist.Digits
import SwitchHoist.Hoisting.Pass
import SwitchHoist.Hoisting.Prefix
import SwitchHoist.Json.Basic
import SwitchHoist.Json.Reader
import SwitchHoist.Json.Writer
import SwitchHoist.Main
import SwitchHoist.Names
import SwitchHoist.Program.Basic
import SwitchHoist.Program.Equality
import SwitchHoist.Program.Identifier
import SwitchHoist.Program.Json
import SwitchHoist.Program.Parser
import SwitchHoist.Program.Printer
import SwitchHoist.References
import SwitchHoist.Renaming
import SwitchHoist.Scopes
import SwitchHoist.Source
import SwitchHoist.Step
import SwitchHoist.Token.Basic
import SwitchHoist.Token.Lexer
import SwitchHoist.Validity.CaseKey
import SwitchHoist.Validity.Rules
import SwitchHoist.Validity.Violation
import SwitchHoist.Proofs.Matching
import SwitchHoist.Proofs.ScopesRestored
import SwitchHoist.Proofs.RenamedMatching
import SwitchHoist.Proofs.AlignedMatching
import SwitchHoist.Proofs.PrefixTaken
import SwitchHoist.Proofs.CaseMeaning
import SwitchHoist.Proofs.BoundedExecution
import SwitchHoist.Proofs.LinkedStates
import SwitchHoist.Proofs.MatchingExecution
import SwitchHoist.Proofs.Assignments
import SwitchHoist.Proofs.KeptVariables
import SwitchHoist.Proofs.EveryStatement
import SwitchHoist.Proofs.PassTaken
import SwitchHoist.Proofs.PrefixExecution
import SwitchHoist.Proofs.OuterScopes
import SwitchHoist.Proofs.PassExecution
import SwitchHoist.Proofs.ValidPrograms
import SwitchHoist.Proofs.ValidityKept
import SwitchHoist.Proofs.VisibleFunctions
import SwitchHoist.Proofs.HoistedEffects
import SwitchHoist.Proofs.FreeNames
import SwitchHoist.Proofs.NamesKept
import SwitchHoist.Proofs.CommonStart
import SwitchHoist.Proofs.Settled
import SwitchHoist.Proofs.DistinctNames
import SwitchHoist.Proofs.SecondRun
import SwitchHoist.Proofs.PassFaults
import SwitchHoist.Proofs.FreeCallees
import SwitchHoist.Proofs.OuterNames
import SwitchHoist.Proofs.Pieces
import SwitchHoist.Proofs.Tokenizing
import SwitchHoist.Proofs.PrintableTrees
import SwitchHoist.Proofs.PrintedTokens
import SwitchHoist.Proofs.ParserSteps
import SwitchHoist.Proofs.AcceptedTokens
import SwitchHoist.Proofs.ReadTrees
import SwitchHoist.Proofs.RoundTrip
import SwitchHoist.Proofs.WrittenPrograms
import SwitchHoist.Proofs.NamelessForm
import SwitchHoist.Proofs.WrittenAgain
import SwitchHoist.Proofs.Grammar
import SwitchHoist.Proofs.ProgramDerivations
import SwitchHoist.Proofs.Sentences
import SwitchHoist.Proofs.JsonTexts
import SwitchHoist.Proofs.JsonReading
import SwitchHoist.Proofs.JsonPrograms
import SwitchHoist.Proofs.ProgramRules
import SwitchHoist.Proofs.CaseNumbers
import SwitchHoist.Proofs.RenamedOccurrences
import SwitchHoist.Proofs.StepwiseRenaming
import SwitchHoist.Proofs.CheckedRenamings
import SwitchHoist.Proofs.CheckedOnce
import SwitchHoist.Proofs.AnyEquivalence
import SwitchHoist.Proofs.RepeatedRuns
import SwitchHoist.Proofs.CaseOrder
import SwitchHoist.Proofs.TokenPatterns
import SwitchHoist.Proofs.LongestPieces
import SwitchHoist.Proofs.Tiling
import SwitchHoist.Proofs.TiledTexts
import SwitchHoist.Proofs.ParserAgreement
import SwitchHoist.Proofs.InsertedLayout
import SwitchHoist.Proofs.TextRows
import SwitchHoist.Proofs.ErrorPlaces
import SwitchHoist.Proofs.RestoredFrames
import SwitchHoist.Proofs.ComposedNames
