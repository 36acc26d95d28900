import WhereClause.Text.Case
import WhereClause.Text.Word

/-! Dialects of SQL, told apart by what an identifier must not contain. -/
namespace WhereClause

/-- A dialect with its denylist. Tokens are denied anywhere in an identifier, keywords as whole
words. An identifier is lower-cased before it is searched, and the entries are used as they are. -/
structure Dialect where
  name : String
  tokens : List String
  keywords : List String
  extraTokens : List String
  extraKeywords : List String
deriving DecidableEq

namespace Dialect

/-- The tokens that every dialect denies. -/
def commonTokens : List String :=
  [";", "--", "/*", "*/", "'", "\"", "\\", "=", "<", ">", "(", ")", ",", "|", "&", "+", "0x"]

/-- The keywords that every dialect denies: the structure of conditions, further statements, and
functions that only take time. -/
def commonKeywords : List String :=
  ["or", "and", "not", "is", "null", "like", "between", "in",
    "select", "insert", "update", "delete", "drop", "truncate", "alter", "create", "grant",
    "revoke", "exec", "execute", "union", "into", "from", "where", "having", "limit", "offset",
    "returning", "sleep", "benchmark", "waitfor"]

/-- In MySQL a hash opens a comment and backticks quote identifiers. -/
def mysql : Dialect where
  name := "mysql"
  tokens := commonTokens
  keywords := commonKeywords
  extraTokens := ["#", "`"]
  extraKeywords := ["xor", "rlike", "regexp", "load_file", "outfile", "dumpfile"]

/-- In Postgres two dollar signs open a quoted string and two colons cast. -/
def postgres : Dialect where
  name := "postgres"
  tokens := commonTokens
  keywords := commonKeywords
  extraTokens := ["$$", "::"]
  extraKeywords := ["ilike", "similar", "pg_sleep", "copy"]

/-- SQLite has no tokens of its own. -/
def sqlite : Dialect where
  name := "sqlite"
  tokens := commonTokens
  keywords := commonKeywords
  extraTokens := []
  extraKeywords := ["attach", "detach", "pragma", "glob", "sqlite_master"]

/-- The denied tokens in the order in which they are tried. -/
def deniedTokens (d : Dialect) : List String :=
  d.tokens ++ d.extraTokens

/-- The denied keywords in the order in which they are tried. -/
def deniedKeywords (d : Dialect) : List String :=
  d.keywords ++ d.extraKeywords

/-- The first entry of the denylist that an identifier contains in any letter case. Tokens are tried
before keywords. -/
def denied? (d : Dialect) (identifier : String) : Option String :=
  let text := Text.lower identifier
  (d.deniedTokens.find? fun token => Text.contains text token.toList).or
    (d.deniedKeywords.find? fun keyword => Text.containsWord text keyword.toList)

end Dialect

end WhereClause
