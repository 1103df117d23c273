import Mizugaki.Aggregation.Acceptance
import Mizugaki.Aggregation.Exposure
import Mizugaki.Aggregation.Presence
import Mizugaki.Aggregation.Rewrite
import Mizugaki.Aggregation.StatementMark
import Mizugaki.Analyzer.Correlation
import Mizugaki.Analyzer.Engine
import Mizugaki.Analyzer.NameResolution
import Mizugaki.Analyzer.Overload
import Mizugaki.Analyzer.QueryConsumer
import Mizugaki.Analyzer.Quiet
import Mizugaki.Analyzer.SchemaQualified
import Mizugaki.Analyzer.Statement
import Mizugaki.Ast.Expression
import Mizugaki.Control.Check
import Mizugaki.Plan.Expression
import Mizugaki.Reporting.Statement
import Mizugaki.Analyzer.Traversal
import Mizugaki.Declaration.Existence
import Mizugaki.Declaration.Identity
import Mizugaki.Ordering.Distinct
import Mizugaki.Scoping.Reference
import Mizugaki.Syntax.Equality
import Mizugaki.Syntax.TreeValidator
import Mizugaki.Literals.ExactNumeric
import Mizugaki.Literals.QuotedString
import Mizugaki.Writing.Insert
import Mizugaki.Analyzer.ColumnChain
import Mizugaki.Literals.TypeSize
import Mizugaki.Declaration.Privilege
import Mizugaki.Parser.Cursor
import Mizugaki.Parser.Keyword
import Mizugaki.Parser.DelimitedIdentifier
import Mizugaki.Declaration.Description
import Mizugaki.Parser.RoutineArguments
import Mizugaki.Tracking.Passed
import Mizugaki.Meaning.Query
import Mizugaki.Writing.Assignment
import Mizugaki.Joining.Coalescing
