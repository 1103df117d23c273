import Mathlib.Tactic.Common

/-! The tokens of the grammar, with the aliases that they are declared with. -/

namespace Mizugaki.Parser

/-- The tokens of the grammar, in the order of their declarations. -/
inductive TokenKind where
  | doubleQuote | percent | ampersand | quote | leftParen | rightParen | asterisk | plusSign
  | comma | minusSign | period | solidus | colon | semicolon | lessThanOperator | equalsOperator
  | greaterThanOperator | questionMark | leftBracket | rightBracket | circumflex | underscore
  | verticalBar | leftBrace | rightBrace | notEqualsOperator | notEqualsAlternativeOperator
  | greaterThanOrEqualsOperator | lessThanOrEqualsOperator | concatenationOperator | rightArrow
  | doubleColon | abs | asymmetric | avg | between | cardinality | ceil | charLength
  | characterLength | coalesce | convert | count | exists_ | extract | floor | generated | length
  | lower | max | min | mod | nullif | octetLength | overlaps | overlay | position | restart
  | similar | sublist | substring | sum | symmetric | translate | trim | upper | absolute
  | action | add | admin | after | alias | all | alter | and_ | any | are | array | as_ | asc
  | assertion | at_ | authorization | before | begin | binary | blob | boolean | both | by_
  | call | cascade | cascaded | case_ | cast | char | character | check | class_ | clob | close
  | collate | column | commit | connect | constraint | constraints | continue_ | corresponding
  | create | cross | cube | current | currentDate | currentPath | currentRole | currentTime
  | currentTimestamp | currentUser | cursor | cycle | date | day | deallocate | dec | decimal
  | declare | default | delete | deref | desc | describe | deterministic | disconnect | distinct
  | double | drop | dynamic | each | else_ | end_ | endExec | escape | every | except | exec
  | execute | external | false_ | fetch | first | float | for_ | foreign | from_ | full
  | function | get | global_ | grant | group | grouping | having | hour | identity | ignore | in_
  | indicator | inner | inout | insert | int | integer | intersect | interval | into | is_ | join
  | key | language | large | last | lateral | leading | left | like | limit | local_ | localtime
  | localtimestamp | match_ | minute | modifies | module | month | national | natural | nchar
  | nclob | new | next | no | none_ | not_ | null | numeric | object | of | old | on_ | only_
  | open_ | or_ | order | ordinality | out | outer | parameter | precision | prepare | primary
  | privileges | procedure | public_ | real | recursive | ref | references | referencing
  | restrict | rename | result | return_ | returns | revoke | right | role | rollback | rollup
  | row | rows | savepoint | schema | scope | search | second | select | sequence | sessionUser
  | set_ | smallint | some_ | specific | sql | sqlexception | sqlstate | sqlwarning | start
  | static | systemUser | table | temporary | then_ | time | timestamp | timezoneHour
  | timezoneMinute | to_ | trailing | translation | treat | trigger | true_ | union | unique
  | unknown | unnest | update | user | using_ | value | values | varchar | varying | view | when_
  | whenever | where_ | with_ | without | year | zone | always | maxvalue | minvalue | increment
  | truncate | containsOperator | isContainedByOperator | overlapsOperator | if_ | index
  | include | nulls | replace | owned | placing | varbinary | tinyint | bigint | bitAnd | bitOr
  | boolAnd | boolOr | apply | dotAsterisk | unionJoin | outerApply | regularIdentifier
  | delimitedIdentifier | regularIdentifierRestricted | delimitedIdentifierRestricted
  | unsignedInteger | exactNumericLiteral | approximateNumericLiteral | characterStringLiteral
  | hexStringLiteral | hostParameterName | error | unclosedBlockComment | endOfFile
  deriving DecidableEq, Repr

namespace TokenKind

/-- The alias that a token is declared with. -/
def alias_ : TokenKind → Option String
  | .doubleQuote => "\"" | .percent => "%" | .ampersand => "&" | .quote => "'"
  | .leftParen => "(" | .rightParen => ")" | .asterisk => "*" | .plusSign => "+" | .comma => ","
  | .minusSign => "-" | .period => "." | .solidus => "/" | .colon => ":" | .semicolon => ";"
  | .lessThanOperator => "<" | .equalsOperator => "=" | .greaterThanOperator => ">"
  | .questionMark => "?" | .leftBracket => "[" | .rightBracket => "]" | .circumflex => "^"
  | .underscore => "_" | .verticalBar => "|" | .leftBrace => "\x7b" | .rightBrace => "\x7d"
  | .notEqualsOperator => "<>" | .notEqualsAlternativeOperator => "!="
  | .greaterThanOrEqualsOperator => ">=" | .lessThanOrEqualsOperator => "<="
  | .concatenationOperator => "||" | .rightArrow => "->" | .doubleColon => "::" | .abs => "ABS"
  | .asymmetric => "ASYMMETRIC" | .avg => "AVG" | .between => "BETWEEN"
  | .cardinality => "CARDINALITY" | .ceil => "CEIL" | .charLength => "CHAR_LENGTH"
  | .characterLength => "CHARACTER_LENGTH" | .coalesce => "COALESCE" | .convert => "CONVERT"
  | .count => "COUNT" | .exists_ => "EXISTS" | .extract => "EXTRACT" | .floor => "FLOOR"
  | .generated => "GENERATED" | .length => "LENGTH" | .lower => "LOWER" | .max => "MAX"
  | .min => "MIN" | .mod => "MOD" | .nullif => "NULLIF" | .octetLength => "OCTET_LENGTH"
  | .overlaps => "OVERLAPS" | .overlay => "OVERLAY" | .position => "POSITION"
  | .restart => "RESTART" | .similar => "SIMILAR" | .sublist => "SUBLIST"
  | .substring => "SUBSTRING" | .sum => "SUM" | .symmetric => "SYMMETRIC"
  | .translate => "TRANSLATE" | .trim => "TRIM" | .upper => "UPPER" | .absolute => "ABSOLUTE"
  | .action => "ACTION" | .add => "ADD" | .admin => "ADMIN" | .after => "AFTER"
  | .alias => "ALIAS" | .all => "ALL" | .alter => "ALTER" | .and_ => "AND" | .any => "ANY"
  | .are => "ARE" | .array => "ARRAY" | .as_ => "AS" | .asc => "ASC" | .assertion => "ASSERTION"
  | .at_ => "AT" | .authorization => "AUTHORIZATION" | .before => "BEFORE" | .begin => "BEGIN"
  | .binary => "BINARY" | .blob => "BLOB" | .boolean => "BOOLEAN" | .both => "BOTH"
  | .by_ => "BY" | .call => "CALL" | .cascade => "CASCADE" | .cascaded => "CASCADED"
  | .case_ => "CASE" | .cast => "CAST" | .char => "CHAR" | .character => "CHARACTER"
  | .check => "CHECK" | .class_ => "CLASS" | .clob => "CLOB" | .close => "CLOSE"
  | .collate => "COLLATE" | .column => "COLUMN" | .commit => "COMMIT" | .connect => "CONNECT"
  | .constraint => "CONSTRAINT" | .constraints => "CONSTRAINTS" | .continue_ => "CONTINUE"
  | .corresponding => "CORRESPONDING" | .create => "CREATE" | .cross => "CROSS" | .cube => "CUBE"
  | .current => "CURRENT" | .currentDate => "CURRENT_DATE" | .currentPath => "CURRENT_PATH"
  | .currentRole => "CURRENT_ROLE" | .currentTime => "CURRENT_TIME"
  | .currentTimestamp => "CURRENT_TIMESTAMP" | .currentUser => "CURRENT_USER"
  | .cursor => "CURSOR" | .cycle => "CYCLE" | .date => "DATE" | .day => "DAY"
  | .deallocate => "DEALLOCATE" | .dec => "DEC" | .decimal => "DECIMAL" | .declare => "DECLARE"
  | .default => "DEFAULT" | .delete => "DELETE" | .deref => "DEREF" | .desc => "DESC"
  | .describe => "DESCRIBE" | .deterministic => "DETERMINISTIC" | .disconnect => "DISCONNECT"
  | .distinct => "DISTINCT" | .double => "DOUBLE" | .drop => "DROP" | .dynamic => "DYNAMIC"
  | .each => "EACH" | .else_ => "ELSE" | .end_ => "END" | .endExec => "END-EXEC"
  | .escape => "ESCAPE" | .every => "EVERY" | .except => "EXCEPT" | .exec => "EXEC"
  | .execute => "EXECUTE" | .external => "EXTERNAL" | .false_ => "FALSE" | .fetch => "FETCH"
  | .first => "FIRST" | .float => "FLOAT" | .for_ => "FOR" | .foreign => "FOREIGN"
  | .from_ => "FROM" | .full => "FULL" | .function => "FUNCTION" | .get => "GET"
  | .global_ => "GLOBAL" | .grant => "GRANT" | .group => "GROUP" | .grouping => "GROUPING"
  | .having => "HAVING" | .hour => "HOUR" | .identity => "IDENTITY" | .ignore => "IGNORE"
  | .in_ => "IN" | .indicator => "INDICATOR" | .inner => "INNER" | .inout => "INOUT"
  | .insert => "INSERT" | .int => "INT" | .integer => "INTEGER" | .intersect => "INTERSECT"
  | .interval => "INTERVAL" | .into => "INTO" | .is_ => "IS" | .join => "JOIN" | .key => "KEY"
  | .language => "LANGUAGE" | .large => "LARGE" | .last => "LAST" | .lateral => "LATERAL"
  | .leading => "LEADING" | .left => "LEFT" | .like => "LIKE" | .limit => "LIMIT"
  | .local_ => "LOCAL" | .localtime => "LOCALTIME" | .localtimestamp => "LOCALTIMESTAMP"
  | .match_ => "MATCH" | .minute => "MINUTE" | .modifies => "MODIFIES" | .module => "MODULE"
  | .month => "MONTH" | .national => "NATIONAL" | .natural => "NATURAL" | .nchar => "NCHAR"
  | .nclob => "NCLOB" | .new => "NEW" | .next => "NEXT" | .no => "NO" | .none_ => "NONE"
  | .not_ => "NOT" | .null => "NULL" | .numeric => "NUMERIC" | .object => "OBJECT" | .of => "OF"
  | .old => "OLD" | .on_ => "ON" | .only_ => "ONLY" | .open_ => "OPEN" | .or_ => "OR"
  | .order => "ORDER" | .ordinality => "ORDINALITY" | .out => "OUT" | .outer => "OUTER"
  | .parameter => "PARAMETER" | .precision => "PRECISION" | .prepare => "PREPARE"
  | .primary => "PRIMARY" | .privileges => "PRIVILEGES" | .procedure => "PROCEDURE"
  | .public_ => "PUBLIC" | .real => "REAL" | .recursive => "RECURSIVE" | .ref => "REF"
  | .references => "REFERENCES" | .referencing => "REFERENCING" | .restrict => "RESTRICT"
  | .rename => "RENAME" | .result => "RESULT" | .return_ => "RETURN" | .returns => "RETURNS"
  | .revoke => "REVOKE" | .right => "RIGHT" | .role => "ROLE" | .rollback => "ROLLBACK"
  | .rollup => "ROLLUP" | .row => "ROW" | .rows => "ROWS" | .savepoint => "SAVEPOINT"
  | .schema => "SCHEMA" | .scope => "SCOPE" | .search => "SEARCH" | .second => "SECOND"
  | .select => "SELECT" | .sequence => "SEQUENCE" | .sessionUser => "SESSION_USER"
  | .set_ => "SET" | .smallint => "SMALLINT" | .some_ => "SOME" | .specific => "SPECIFIC"
  | .sql => "SQL" | .sqlexception => "SQLEXCEPTION" | .sqlstate => "SQLSTATE"
  | .sqlwarning => "SQLWARNING" | .start => "START" | .static => "STATIC"
  | .systemUser => "SYSTEM_USER" | .table => "TABLE" | .temporary => "TEMPORARY"
  | .then_ => "THEN" | .time => "TIME" | .timestamp => "TIMESTAMP"
  | .timezoneHour => "TIMEZONE_HOUR" | .timezoneMinute => "TIMEZONE_MINUTE" | .to_ => "TO"
  | .trailing => "TRAILING" | .translation => "TRANSLATION" | .treat => "TREAT"
  | .trigger => "TRIGGER" | .true_ => "TRUE" | .union => "UNION" | .unique => "UNIQUE"
  | .unknown => "UNKNOWN" | .unnest => "UNNEST" | .update => "UPDATE" | .user => "USER"
  | .using_ => "USING" | .value => "VALUE" | .values => "VALUES" | .varchar => "VARCHAR"
  | .varying => "VARYING" | .view => "VIEW" | .when_ => "WHEN" | .whenever => "WHENEVER"
  | .where_ => "WHERE" | .with_ => "WITH" | .without => "WITHOUT" | .year => "YEAR"
  | .zone => "ZONE" | .always => "ALWAYS" | .maxvalue => "MAXVALUE" | .minvalue => "MINVALUE"
  | .increment => "INCREMENT" | .truncate => "TRUNCATE" | .containsOperator => "<@"
  | .isContainedByOperator => "@>" | .overlapsOperator => "&&" | .if_ => "IF" | .index => "INDEX"
  | .include => "INCLUDE" | .nulls => "NULLS" | .replace => "REPLACE" | .owned => "OWNED"
  | .placing => "PLACING" | .varbinary => "VARBINARY" | .tinyint => "TINYINT"
  | .bigint => "BIGINT" | .bitAnd => "BIT_AND" | .bitOr => "BIT_OR" | .boolAnd => "BOOL_AND"
  | .boolOr => "BOOL_OR" | .apply => "APPLY" | .dotAsterisk => ". *" | .unionJoin => "UNION JOIN"
  | .outerApply => "OUTER APPLY" | .regularIdentifier => "<identifier>"
  | .delimitedIdentifier => "<delimited-identifier>" | .regularIdentifierRestricted => none
  | .delimitedIdentifierRestricted => none | .unsignedInteger => "<unsigned-integer>"
  | .exactNumericLiteral => "<exact-numeric-literal>"
  | .approximateNumericLiteral => "<approximate-numeric-literal>"
  | .characterStringLiteral => "<character-string-literal>"
  | .hexStringLiteral => "<hex-string-literal>" | .hostParameterName => "<host-parameter-name>"
  | .error => "<ERROR>" | .unclosedBlockComment => "<UNCLOSED_BLOCK_COMMENT>"
  | .endOfFile => "<END_OF_FILE>"

end TokenKind

/-- A rule whose pattern is a text: its token, whether the token carries the text as it is written,
and whether it marks a placeholder. -/
structure TextRule where
  text : String
  kind : TokenKind
  image : Bool := false
  placeholder : Bool := false

/-- The rules of operators and separators. -/
def operatorRules : List TextRule := [
  { text := "<>", kind := .notEqualsOperator },
  { text := "!=", kind := .notEqualsAlternativeOperator },
  { text := ">=", kind := .greaterThanOrEqualsOperator },
  { text := "<=", kind := .lessThanOrEqualsOperator },
  { text := "||", kind := .concatenationOperator }, { text := "->", kind := .rightArrow },
  { text := "::", kind := .doubleColon }, { text := "%", kind := .percent },
  { text := "&", kind := .ampersand }, { text := "'", kind := .quote },
  { text := "(", kind := .leftParen }, { text := ")", kind := .rightParen },
  { text := "*", kind := .asterisk }, { text := "+", kind := .plusSign },
  { text := ",", kind := .comma }, { text := "-", kind := .minusSign },
  { text := ".", kind := .period }, { text := "/", kind := .solidus },
  { text := ":", kind := .colon }, { text := ";", kind := .semicolon },
  { text := "<", kind := .lessThanOperator }, { text := "=", kind := .equalsOperator },
  { text := ">", kind := .greaterThanOperator },
  { text := "?", kind := .questionMark, placeholder := true },
  { text := "[", kind := .leftBracket }, { text := "]", kind := .rightBracket },
  { text := "^", kind := .circumflex }, { text := "_", kind := .underscore },
  { text := "|", kind := .verticalBar }, { text := "\x7b", kind := .leftBrace },
  { text := "\x7d", kind := .rightBrace }]

/-- The rules of reserved and other words. -/
def keywordRules : List TextRule := [
  { text := "ABS", kind := .abs }, { text := "ASYMMETRIC", kind := .asymmetric },
  { text := "AVG", kind := .avg }, { text := "BETWEEN", kind := .between },
  { text := "CARDINALITY", kind := .cardinality }, { text := "CEIL", kind := .ceil },
  { text := "CHAR_LENGTH", kind := .charLength },
  { text := "CHARACTER_LENGTH", kind := .characterLength },
  { text := "COALESCE", kind := .coalesce },
  { text := "CONTINUE", kind := .continue_, image := true },
  { text := "CONVERT", kind := .convert }, { text := "COUNT", kind := .count },
  { text := "EXISTS", kind := .exists_ }, { text := "EXTRACT", kind := .extract },
  { text := "FLOOR", kind := .floor }, { text := "GENERATED", kind := .generated },
  { text := "LENGTH", kind := .length }, { text := "LOWER", kind := .lower },
  { text := "MAX", kind := .max }, { text := "MIN", kind := .min },
  { text := "MOD", kind := .mod }, { text := "NULLIF", kind := .nullif },
  { text := "OCTET_LENGTH", kind := .octetLength }, { text := "OVERLAPS", kind := .overlaps },
  { text := "OVERLAY", kind := .overlay }, { text := "POSITION", kind := .position },
  { text := "RESTART", kind := .restart, image := true }, { text := "SIMILAR", kind := .similar },
  { text := "SUBLIST", kind := .sublist }, { text := "SUBSTRING", kind := .substring },
  { text := "SUM", kind := .sum }, { text := "SYMMETRIC", kind := .symmetric },
  { text := "TRANSLATE", kind := .translate }, { text := "TRIM", kind := .trim },
  { text := "UPPER", kind := .upper }, { text := "ABSOLUTE", kind := .absolute, image := true },
  { text := "ACTION", kind := .action, image := true },
  { text := "ADD", kind := .add, image := true },
  { text := "ADMIN", kind := .admin, image := true },
  { text := "AFTER", kind := .after, image := true },
  { text := "ALIAS", kind := .alias, image := true }, { text := "ALL", kind := .all },
  { text := "ALTER", kind := .alter }, { text := "AND", kind := .and_ },
  { text := "ANY", kind := .any }, { text := "ARE", kind := .are },
  { text := "ARRAY", kind := .array }, { text := "AS", kind := .as_ },
  { text := "ASC", kind := .asc, image := true },
  { text := "ASSERTION", kind := .assertion, image := true }, { text := "AT", kind := .at_ },
  { text := "AUTHORIZATION", kind := .authorization },
  { text := "BEFORE", kind := .before, image := true }, { text := "BEGIN", kind := .begin },
  { text := "BINARY", kind := .binary }, { text := "BLOB", kind := .blob },
  { text := "BOOLEAN", kind := .boolean }, { text := "BOTH", kind := .both },
  { text := "BY", kind := .by_ }, { text := "CALL", kind := .call },
  { text := "CASCADE", kind := .cascade, image := true },
  { text := "CASCADED", kind := .cascaded }, { text := "CASE", kind := .case_ },
  { text := "CAST", kind := .cast }, { text := "CHAR", kind := .char },
  { text := "CHARACTER", kind := .character }, { text := "CHECK", kind := .check },
  { text := "CLASS", kind := .class_ }, { text := "CLOB", kind := .clob },
  { text := "CLOSE", kind := .close }, { text := "COLLATE", kind := .collate },
  { text := "COLUMN", kind := .column }, { text := "COMMIT", kind := .commit },
  { text := "CONNECT", kind := .connect }, { text := "CONSTRAINT", kind := .constraint },
  { text := "CONSTRAINTS", kind := .constraints },
  { text := "CORRESPONDING", kind := .corresponding }, { text := "CREATE", kind := .create },
  { text := "CROSS", kind := .cross }, { text := "CUBE", kind := .cube },
  { text := "CURRENT", kind := .current }, { text := "CURRENT_DATE", kind := .currentDate },
  { text := "CURRENT_PATH", kind := .currentPath },
  { text := "CURRENT_ROLE", kind := .currentRole },
  { text := "CURRENT_TIME", kind := .currentTime },
  { text := "CURRENT_TIMESTAMP", kind := .currentTimestamp },
  { text := "CURRENT_USER", kind := .currentUser }, { text := "CURSOR", kind := .cursor },
  { text := "CYCLE", kind := .cycle }, { text := "DATE", kind := .date },
  { text := "DAY", kind := .day }, { text := "DEALLOCATE", kind := .deallocate },
  { text := "DEC", kind := .dec }, { text := "DECIMAL", kind := .decimal },
  { text := "DECLARE", kind := .declare }, { text := "DEFAULT", kind := .default },
  { text := "DELETE", kind := .delete }, { text := "DEREF", kind := .deref },
  { text := "DESC", kind := .desc, image := true }, { text := "DESCRIBE", kind := .describe },
  { text := "DETERMINISTIC", kind := .deterministic },
  { text := "DISCONNECT", kind := .disconnect }, { text := "DISTINCT", kind := .distinct },
  { text := "DOUBLE", kind := .double }, { text := "DROP", kind := .drop },
  { text := "DYNAMIC", kind := .dynamic }, { text := "EACH", kind := .each },
  { text := "ELSE", kind := .else_, image := true }, { text := "END", kind := .end_ },
  { text := "END-EXEC", kind := .endExec }, { text := "ESCAPE", kind := .escape },
  { text := "EVERY", kind := .every }, { text := "EXCEPT", kind := .except },
  { text := "EXEC", kind := .exec }, { text := "EXECUTE", kind := .execute },
  { text := "EXTERNAL", kind := .external }, { text := "FALSE", kind := .false_ },
  { text := "FETCH", kind := .fetch }, { text := "FIRST", kind := .first, image := true },
  { text := "FLOAT", kind := .float }, { text := "FOR", kind := .for_ },
  { text := "FOREIGN", kind := .foreign }, { text := "FROM", kind := .from_ },
  { text := "FULL", kind := .full }, { text := "FUNCTION", kind := .function },
  { text := "GET", kind := .get }, { text := "GLOBAL", kind := .global_ },
  { text := "GRANT", kind := .grant }, { text := "GROUP", kind := .group },
  { text := "GROUPING", kind := .grouping }, { text := "HAVING", kind := .having },
  { text := "HOUR", kind := .hour }, { text := "IDENTITY", kind := .identity },
  { text := "IGNORE", kind := .ignore, image := true }, { text := "IN", kind := .in_ },
  { text := "INDICATOR", kind := .indicator }, { text := "INNER", kind := .inner },
  { text := "INOUT", kind := .inout }, { text := "INSERT", kind := .insert },
  { text := "INT", kind := .int }, { text := "INTEGER", kind := .integer },
  { text := "INTERSECT", kind := .intersect }, { text := "INTERVAL", kind := .interval },
  { text := "INTO", kind := .into }, { text := "IS", kind := .is_ },
  { text := "JOIN", kind := .join }, { text := "KEY", kind := .key, image := true },
  { text := "LANGUAGE", kind := .language }, { text := "LARGE", kind := .large },
  { text := "LAST", kind := .last, image := true }, { text := "LATERAL", kind := .lateral },
  { text := "LEADING", kind := .leading }, { text := "LEFT", kind := .left },
  { text := "LIKE", kind := .like }, { text := "LIMIT", kind := .limit },
  { text := "LOCAL", kind := .local_ }, { text := "LOCALTIME", kind := .localtime },
  { text := "LOCALTIMESTAMP", kind := .localtimestamp }, { text := "MATCH", kind := .match_ },
  { text := "MINUTE", kind := .minute }, { text := "MODIFIES", kind := .modifies },
  { text := "MODULE", kind := .module }, { text := "MONTH", kind := .month },
  { text := "NATIONAL", kind := .national }, { text := "NATURAL", kind := .natural },
  { text := "NCHAR", kind := .nchar }, { text := "NCLOB", kind := .nclob },
  { text := "NEW", kind := .new }, { text := "NEXT", kind := .next },
  { text := "NO", kind := .no }, { text := "NONE", kind := .none_ },
  { text := "NOT", kind := .not_ }, { text := "NULL", kind := .null },
  { text := "NUMERIC", kind := .numeric }, { text := "OBJECT", kind := .object },
  { text := "OF", kind := .of }, { text := "OLD", kind := .old }, { text := "ON", kind := .on_ },
  { text := "ONLY", kind := .only_ }, { text := "OPEN", kind := .open_ },
  { text := "OR", kind := .or_ }, { text := "ORDER", kind := .order },
  { text := "ORDINALITY", kind := .ordinality, image := true }, { text := "OUT", kind := .out },
  { text := "OUTER", kind := .outer }, { text := "PARAMETER", kind := .parameter },
  { text := "PRECISION", kind := .precision }, { text := "PREPARE", kind := .prepare },
  { text := "PRIMARY", kind := .primary }, { text := "PRIVILEGES", kind := .privileges },
  { text := "PROCEDURE", kind := .procedure }, { text := "PUBLIC", kind := .public_ },
  { text := "REAL", kind := .real }, { text := "RECURSIVE", kind := .recursive },
  { text := "REF", kind := .ref }, { text := "REFERENCES", kind := .references },
  { text := "REFERENCING", kind := .referencing },
  { text := "RESTRICT", kind := .restrict, image := true },
  { text := "RENAME", kind := .rename, image := true }, { text := "RESULT", kind := .result },
  { text := "RETURN", kind := .return_ }, { text := "RETURNS", kind := .returns },
  { text := "REVOKE", kind := .revoke }, { text := "RIGHT", kind := .right },
  { text := "ROLE", kind := .role }, { text := "ROLLBACK", kind := .rollback },
  { text := "ROLLUP", kind := .rollup }, { text := "ROW", kind := .row },
  { text := "ROWS", kind := .rows }, { text := "SAVEPOINT", kind := .savepoint },
  { text := "SCHEMA", kind := .schema, image := true }, { text := "SCOPE", kind := .scope },
  { text := "SEARCH", kind := .search }, { text := "SECOND", kind := .second },
  { text := "SELECT", kind := .select }, { text := "SEQUENCE", kind := .sequence, image := true },
  { text := "SESSION_USER", kind := .sessionUser }, { text := "SET", kind := .set_ },
  { text := "SMALLINT", kind := .smallint }, { text := "SOME", kind := .some_ },
  { text := "SPECIFIC", kind := .specific }, { text := "SQL", kind := .sql },
  { text := "SQLEXCEPTION", kind := .sqlexception }, { text := "SQLSTATE", kind := .sqlstate },
  { text := "SQLWARNING", kind := .sqlwarning }, { text := "START", kind := .start },
  { text := "STATIC", kind := .static }, { text := "SYSTEM_USER", kind := .systemUser },
  { text := "TABLE", kind := .table }, { text := "TEMPORARY", kind := .temporary },
  { text := "THEN", kind := .then_ }, { text := "TIME", kind := .time },
  { text := "TIMESTAMP", kind := .timestamp }, { text := "TIMEZONE_HOUR", kind := .timezoneHour },
  { text := "TIMEZONE_MINUTE", kind := .timezoneMinute }, { text := "TO", kind := .to_ },
  { text := "TRAILING", kind := .trailing }, { text := "TRANSLATION", kind := .translation },
  { text := "TREAT", kind := .treat }, { text := "TRIGGER", kind := .trigger },
  { text := "TRUE", kind := .true_ }, { text := "UNION", kind := .union },
  { text := "UNIQUE", kind := .unique }, { text := "UNKNOWN", kind := .unknown },
  { text := "UNNEST", kind := .unnest }, { text := "UPDATE", kind := .update },
  { text := "USER", kind := .user }, { text := "USING", kind := .using_ },
  { text := "VALUE", kind := .value, image := true }, { text := "VALUES", kind := .values },
  { text := "VARCHAR", kind := .varchar }, { text := "VARYING", kind := .varying },
  { text := "VIEW", kind := .view }, { text := "WHEN", kind := .when_ },
  { text := "WHENEVER", kind := .whenever }, { text := "WHERE", kind := .where_ },
  { text := "WITH", kind := .with_ }, { text := "WITHOUT", kind := .without },
  { text := "YEAR", kind := .year }, { text := "ZONE", kind := .zone },
  { text := "ALWAYS", kind := .always }, { text := "MAXVALUE", kind := .maxvalue },
  { text := "MINVALUE", kind := .minvalue }, { text := "INCREMENT", kind := .increment },
  { text := "NULLS", kind := .nulls }, { text := "REPLACE", kind := .replace },
  { text := "OWNED", kind := .owned }, { text := "TRUNCATE", kind := .truncate },
  { text := "<@", kind := .containsOperator }, { text := "@>", kind := .isContainedByOperator },
  { text := "&&", kind := .overlapsOperator }, { text := "INCLUDE", kind := .include },
  { text := "IF", kind := .if_ }, { text := "INDEX", kind := .index },
  { text := "VARBINARY", kind := .varbinary }, { text := "PLACING", kind := .placing },
  { text := "TINYINT", kind := .tinyint }, { text := "BIGINT", kind := .bigint },
  { text := "BIT_AND", kind := .boolAnd }, { text := "BIT_OR", kind := .boolOr },
  { text := "BOOL_AND", kind := .boolAnd }, { text := "BOOL_OR", kind := .boolOr },
  { text := "APPLY", kind := .apply }]

end Mizugaki.Parser
