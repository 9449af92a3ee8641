import AddressCode.Digest.Md5
import AddressCode.Store
import AddressCode.Text.Quoted

/-!
# AddressCode.Output — what a program has printed

The log keeps every value printed, with the line and the procedure that printed it.  The values are
the ones in the store, not copies, so the text of an array is the text it has when it is asked for.
The fingerprint of a log is a digest of the texts of its records.
-/

namespace AddressCode

/-- A value that was printed. -/
structure Record where
  value : Value
  line : Int
  proc : String
deriving Repr, DecidableEq, Inhabited

/-- The records of a run, in order. -/
abbrev Log := Array Record

namespace Log

/-- A record as it enters the fingerprint: its fields in the order of their names. -/
def recordText (kind : Value.Kind) (line : Int) (proc value : String) : String :=
  "\x7bKind:\"" ++ kind.name ++ "\",Line:" ++ toString line ++ ",Proc:\"" ++ proc ++
    "\",Value:\"" ++ value ++ "\"\x7d"

/-- The texts of the values, unless one of them contains itself. -/
def texts? (s : Store) (log : Log) : Option (List String) :=
  log.toList.mapM fun r => s.text? r.value

/-- The text whose digest is the fingerprint. -/
def preimage? (s : Store) (log : Log) : Option String :=
  (log.toList.mapM fun r => (s.text? r.value).map (recordText r.value.kind r.line r.proc)).map
    fun rs => "\x7bRecords:[" ++ ",".intercalate rs ++ "]\x7d"

/-- The fingerprint of a text: a version and its digest. -/
def fingerprintOf (s : String) : String :=
  "v1_" ++ String.join ((Md5.digest (Text.Utf8.encode s)).map fun b => Text.hexDigits 2 b.toNat)

/-- The fingerprint of a log, unless one of its values contains itself. -/
def fingerprint? (s : Store) (log : Log) : Option String := (preimage? s log).map fingerprintOf

end Log

end AddressCode
