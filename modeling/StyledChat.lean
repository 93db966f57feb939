import StyledChat.Chat.Config.Read
import StyledChat.Chat.Config.Shape
import StyledChat.Chat.Formatter
import StyledChat.Component.Ansi
import StyledChat.Component.Json
import StyledChat.Proofs.Interactions
import StyledChat.Proofs.Interpreter
import StyledChat.Proofs.Scan
import StyledChat.Proofs.Walk
import StyledChat.Proofs.Surroundings
import StyledChat.Proofs.Stretches
import StyledChat.Proofs.Guarded
import StyledChat.Proofs.Quoting
import StyledChat.Proofs.NormalForm
import StyledChat.Proofs.NormalReading
import StyledChat.Proofs.RoundTrip
import StyledChat.Proofs.PutOrder
import StyledChat.Proofs.Said
import StyledChat.Proofs.ShownMessage
import StyledChat.Proofs.Spelling
import StyledChat.Proofs.QuotedArguments
import StyledChat.Proofs.MadeTags
import StyledChat.Proofs.Sources
import StyledChat.Proofs.ShownSources
import StyledChat.Proofs.Choice
import StyledChat.Proofs.Requests
import StyledChat.Proofs.Retention
import StyledChat.Proofs.DebugSwitch
import StyledChat.Proofs.Following
import StyledChat.Proofs.CodedStyles
import StyledChat.Proofs.SpelledOut
import StyledChat.Proofs.ReadBack
import StyledChat.Proofs.Terminal
import StyledChat.Proofs.FlagPairs
import StyledChat.Proofs.StrayQuotes
import StyledChat.Proofs.GrantedNodes
import StyledChat.Proofs.KeptTemplates
import StyledChat.Proofs.TextualSubstitution
import StyledChat.Proofs.ResetBarrier
import StyledChat.Proofs.SeparateEntries
import StyledChat.Proofs.CarriedNames
import StyledChat.Proofs.FileRuns
import StyledChat.Proofs.Palette
import StyledChat.Proofs.ColorSpellings
import StyledChat.Proofs.QuotedTokens
import StyledChat.Proofs.Sweeps
import StyledChat.Fill.Checked
import StyledChat.Proofs.CheckedFills
import StyledChat.Proofs.ClosingNames
import StyledChat.Proofs.NestedHovers
