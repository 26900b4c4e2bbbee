/-!
The keywords of SQL, by what they can still name. A word that is in none of the lists names
anything.
-/

namespace Galley.Sql

/-- Keywords that name nothing. -/
def reservedWords : List String :=
  ["all", "analyse", "analyze", "and", "any", "array", "as", "asc", "asymmetric", "both", "case",
    "cast", "check", "collate", "column", "concurrently", "constraint", "create",
    "current_catalog", "current_date", "current_role", "current_schema", "current_time",
    "current_timestamp", "current_user", "default", "deferrable", "desc", "distinct", "do", "else",
    "end", "except", "false", "fetch", "for", "foreign", "from", "grant", "group", "having", "in",
    "initially", "intersect", "into", "lateral", "leading", "limit", "localtime", "localtimestamp",
    "not", "null", "offset", "on", "only", "or", "order", "placing", "primary", "references",
    "returning", "select", "session_user", "some", "symmetric", "table", "then", "to", "trailing",
    "true", "union", "unique", "user", "using", "variadic", "when", "where", "window", "with"]

/-- Keywords that name functions and types only. -/
def functionWords : List String :=
  ["authorization", "collation", "cross", "family", "full", "ilike", "inner", "is", "isnull",
    "join", "left", "like", "natural", "none", "notnull", "outer", "overlaps", "right", "similar"]

/-- Keywords that name columns and tables, but no functions. -/
def columnWords : List String :=
  ["annotate_type", "between", "bigint", "bit", "boolean", "box2d", "char", "character",
    "characteristics", "coalesce", "dec", "decimal", "exists", "extract", "extract_duration",
    "float", "geography", "geometry", "greatest", "grouping", "if", "iferror", "ifnull", "inout",
    "int", "integer", "interval", "iserror", "least", "nullif", "numeric", "out", "overlay",
    "point", "polygon", "position", "precision", "real", "row", "setof", "smallint", "string",
    "substring", "time", "timestamp", "timestamptz", "timetz", "treat", "trim", "values", "varbit",
    "varchar", "virtual", "work"]

/-- Words that change the meaning of the word before or after them. -/
def joiningWords : List String :=
  ["between", "generated", "ilike", "in", "like", "of", "on", "ordinality", "reset", "role", "set",
    "similar", "tenant", "time", "user"]

/-- Keywords that name a result column only after `AS`. -/
def labelWords : List String :=
  ["array", "as", "char", "character", "create", "day", "except", "fetch", "filter", "for", "from",
    "grant", "group", "having", "hour", "intersect", "into", "isnull", "limit", "minute", "month",
    "notnull", "offset", "on", "order", "over", "overlaps", "precision", "returning", "second", "to",
    "union", "varying", "where", "window", "with", "within", "without", "year"]

/-- Keywords that name anything. -/
def openWords : List String :=
  ["abort", "absolute", "access", "action", "add", "admin", "after", "aggregate", "alter", "always",
    "asensitive", "at", "atomic", "attribute", "automatic", "availability", "backup", "backups",
    "backward", "batch", "before", "begin", "bidirectional", "binary", "bucket_count", "bundle",
    "by", "cache", "call", "called", "cancel", "cancelquery", "capabilities", "capability",
    "cascade", "changefeed", "close", "cluster", "clusters", "columns", "comment", "comments",
    "commit", "committed", "compact", "complete", "completions", "configuration", "configurations",
    "configure", "conflict", "connection", "connections", "constraints", "controlchangefeed",
    "controljob", "conversion", "convert", "copy", "cost", "covering", "createdb", "createlogin",
    "createrole", "csv", "cube", "current", "cursor", "cycle", "data", "database", "databases",
    "day", "deallocate", "declare", "defaults", "deferred", "definer", "delete", "delimiter",
    "depends", "destination", "detached", "details", "discard", "domain", "double", "drop", "each",
    "enable", "encoding", "encrypted", "enum", "enums", "escape", "exclude", "excluding",
    "execute", "execution", "experimental", "expiration", "explain", "export", "extension",
    "external", "failure", "files", "filter", "first", "following", "force", "force_index",
    "force_zigzag", "format", "forward", "freeze", "function", "functions", "generated",
    "geometrycollection", "geometrycollectionm", "geometrycollectionz", "geometrycollectionzm",
    "geometrym", "geometryz", "geometryzm", "global", "goal", "grantee", "grants", "groups", "hash",
    "header", "high", "histogram", "hold", "hour", "identity", "ignore_foreign_keys", "immediate",
    "immediately", "immutable", "import", "include", "including", "increment", "incremental",
    "index", "indexes", "inherits", "inject", "input", "insensitive", "insert", "inverted",
    "invisible", "invoker", "isolation", "job", "jobs", "json", "key", "keys", "kms", "kv", "label",
    "language", "last", "latest", "lc_collate", "lc_ctype", "leakproof", "lease", "less", "level",
    "linestring", "linestringm", "linestringz", "linestringzm", "list", "local", "locality",
    "locked", "login", "lookup", "low", "match", "materialized", "maxvalue", "merge", "method",
    "minute", "minvalue", "mode", "modifyclustersetting", "month", "move", "multilinestring",
    "multilinestringm", "multilinestringz", "multilinestringzm", "multipoint", "multipointm",
    "multipointz", "multipointzm", "multipolygon", "multipolygonm", "multipolygonz",
    "multipolygonzm", "names", "nan", "never", "next", "no", "no_full_scan", "no_index_join",
    "no_zigzag_join", "nocancelquery", "nologin", "nonvoters", "normal", "nothing", "nowait",
    "nulls", "of", "off", "oids", "operator", "opt", "option", "options", "ordinality", "others",
    "over", "overriding", "owned", "owner", "parallel", "parameter", "parent", "partial",
    "partition", "partitions", "password", "pause", "paused", "per", "physical", "placement",
    "plan", "plans", "pointm", "pointz", "pointzm", "polygonm", "polygonz", "polygonzm",
    "preceding", "prepare", "preserve", "prior", "priority", "privileges", "procedure",
    "procedures", "public", "publication", "queries", "query", "quote", "range", "ranges", "read",
    "reason", "reassign", "recurring", "recursive", "redact", "ref", "refresh", "region",
    "regional", "regions", "reindex", "relative", "release", "relocate", "rename", "repeatable",
    "replace", "replication", "reset", "restart", "restore", "restrict", "restricted", "resume",
    "retry", "return", "returns", "revoke", "role", "roles", "rollback", "rollup", "routines",
    "rows", "rule", "running", "savepoint", "scans", "scatter", "schedule", "schedules", "schema",
    "schemas", "scroll", "scrub", "search", "second", "secondary", "security", "sequence",
    "sequences", "serializable", "server", "service", "session", "sessions", "set", "sets",
    "setting", "settings", "share", "shared", "show", "simple", "size", "skip", "snapshot",
    "split", "sql", "sqllogin", "stable", "start", "state", "statements", "statistics", "stdin",
    "stdout", "stop", "storage", "store", "stored", "storing", "straight", "stream", "strict",
    "subscription", "super", "support", "survival", "survive", "syntax", "system", "tables",
    "tablespace", "temp", "template", "temporary", "tenant", "tenants", "text", "throttling",
    "ties", "trace", "tracing", "transaction", "transactions", "transfer", "transform", "trigger",
    "truncate", "trusted", "type", "types", "unbounded", "uncommitted", "unknown", "unlisten",
    "unlogged", "unset", "unsplit", "until", "update", "upsert", "use", "users", "valid",
    "validate", "value", "varying", "view", "viewactivity", "visibility", "visible", "volatile",
    "voters", "within", "without", "write", "year", "zone"]

/-- Whether a word names nothing. -/
def isReserved (w : String) : Bool := reservedWords.elem w

/-- Whether a word names functions and types only. -/
def isFunctionWord (w : String) : Bool := functionWords.elem w

/-- Whether a word names columns and tables, but no functions. -/
def isColumnWord (w : String) : Bool := columnWords.elem w

/-- Whether a word is a keyword. -/
def isKeyword (w : String) : Bool :=
  isReserved w || isFunctionWord w || isColumnWord w || openWords.elem w

/-- Whether a word must be quoted where a name stands on its own. -/
def needsQuotes (w : String) : Bool :=
  isReserved w || isFunctionWord w || isColumnWord w || joiningWords.elem w

end Galley.Sql
