import OpticC.Lib.ByteMemory
import OpticC.Arena
import OpticC.ArenaBounds
import OpticC.MappedArena
import OpticC.ArenaContents
import OpticC.IntType
import OpticC.Frontend.Parser
import OpticC.Frontend.BinaryChain
import OpticC.Frontend.MacroTermination
import OpticC.Frontend.MacroArguments
import OpticC.Frontend.Enumerators
import OpticC.Frontend.TypeNames
import OpticC.Statement.Semantics
import OpticC.Backend.ControlFlow
import OpticC.Backend.SwitchDispatch
import OpticC.Backend.NameResolution
import OpticC.Backend.Conversions
import OpticC.Backend.IntegerExpressions
import OpticC.Backend.PointerScaling
import OpticC.Backend.StoresAndCalls
import OpticC.Backend.Reachability
import OpticC.Backend.FileScope
import OpticC.Backend.PlainMembers
import OpticC.Build.Pipeline
import OpticC.Lib.Memo
import OpticC.Build.ObjectCache
import OpticC.Build.StaleObjects
import OpticC.Frontend.Tokenizer
import OpticC.Frontend.IntegerConstants
import OpticC.Frontend.ConstantTrees
import OpticC.Frontend.ConstantValues
import OpticC.Frontend.ConstantAgreement
import OpticC.Frontend.Directives
import OpticC.Frontend.ResolveIncludes
import OpticC.Frontend.DirectiveLines
import OpticC.Frontend.ConditionalGroups
import OpticC.Frontend.DirectiveRounds
import OpticC.Frontend.ConditionalInclusion
import OpticC.Frontend.MacroBinding
import OpticC.Frontend.IfExpression
import OpticC.Frontend.IfTrees
import OpticC.Frontend.IfReading
import OpticC.Frontend.IfAgreement
import OpticC.Frontend.IfExpansion
import OpticC.Frontend.IfFits
import OpticC.Frontend.IfSimulation
import OpticC.Frontend.IfMacros
import OpticC.Types.StructLayout
import OpticC.Types.LayoutSoundness
import OpticC.Lib.Interleaving
import OpticC.Build.CompileAll
import OpticC.Build.SourcesApart
import OpticC.Frontend.IncludeFiles
import OpticC.Frontend.TokenTexts
import OpticC.Frontend.LineSplicing
import OpticC.Lib.MaximalMunch
import OpticC.Frontend.CTokens
import OpticC.Frontend.TokenAgreement
import OpticC.Backend.OverflowBuiltins
import OpticC.Backend.SpecifierOrders
import OpticC.Frontend.Literals
import OpticC.Backend.LiteralConstants
import OpticC.Backend.Assignments
import OpticC.Backend.CompoundAssignment
import OpticC.Backend.Bitfields
import OpticC.Backend.BitfieldRuns
import OpticC.Backend.JumpStacks
import OpticC.Frontend.FreshNodes
import OpticC.Frontend.StatementExprs
import OpticC.Backend.StatementExprs
import OpticC.Lib.MakeRules
import OpticC.Build.DepFiles
import OpticC.Backend.InlineAsm
import OpticC.Types.BitfieldLayout
import OpticC.Frontend.Stringification
import OpticC.Lib.BracketedLists
import OpticC.Frontend.ArgumentLists
import OpticC.Frontend.TokenPasting
import OpticC.Frontend.LineNumbers
import OpticC.Build.CacheKeys
import OpticC.Types.TypeSystem
import OpticC.Types.ArithmeticConversions
import OpticC.Lib.Scripts
import OpticC.Frontend.IfSteps
import OpticC.Frontend.MacroFaults
import OpticC.Frontend.IfArithmetic
import OpticC.Frontend.IfFuel
import OpticC.Frontend.InvocationArguments
import OpticC.Frontend.IfTermination
import OpticC.Types.Assignability
import OpticC.Lib.HashConsing
import OpticC.Types.Registration
import OpticC.Types.LayoutMembers
import OpticC.Types.Interning
import OpticC.Lib.IndexedRecursion
import OpticC.Types.TypeOrder
import OpticC.Lib.DepthFirst
import OpticC.Analysis.Provenance
import OpticC.Analysis.NoAlias
import OpticC.Vfs.Tree
import OpticC.Lib.LossyText
import OpticC.Vfs.Contents
import OpticC.Vfs.ChunkedReads
import OpticC.Vfs.Listing
import OpticC.Vfs.Paths
import OpticC.Frontend.Lexer
import OpticC.Frontend.LexerReads
import OpticC.Frontend.LexerNumbers
import OpticC.Frontend.LexerTokens
import OpticC.Frontend.LexerMunch
import OpticC.Frontend.MacroExpander
import OpticC.Frontend.ExpanderProgress
import OpticC.Frontend.ExpanderLexer
import OpticC.Frontend.ExpanderOffsets
import OpticC.Frontend.SourceConservation
import OpticC.Frontend.ExpressionGrammar
import OpticC.Frontend.ExpressionOutcomes
import OpticC.Frontend.ExpressionReading
import OpticC.Frontend.OperandReading
import OpticC.Frontend.ParenthesisedOperands
import OpticC.Lib.LinkedForest
import OpticC.Frontend.Grammar
import OpticC.Frontend.Statements
import OpticC.Frontend.Declarations
import OpticC.Frontend.TranslationUnit
import OpticC.Frontend.NodeForest
import OpticC.Frontend.ForestCalls
import OpticC.Frontend.ExpressionForest
import OpticC.Frontend.DeclaratorForest
import OpticC.Frontend.StatementForest
import OpticC.Frontend.DeclarationForest
import OpticC.Frontend.AstForest
import OpticC.Lib.LastWord
import OpticC.Analysis.UseAfterFree
import OpticC.Lib.Words
import OpticC.Driver.Invocation
import OpticC.Driver.CommandLine
import OpticC.Lib.Approximation
import OpticC.Frontend.StuckProductions
import OpticC.Frontend.StatementGrammar
import OpticC.Frontend.StatementNodes
import OpticC.Frontend.StatementForms
import OpticC.Frontend.FirstTokens
import OpticC.Frontend.BlockReading
import OpticC.Frontend.SourceJumps
import OpticC.Backend.SourceRuns
