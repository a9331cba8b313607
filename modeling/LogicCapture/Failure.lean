import LogicCapture.Csv.Role
import LogicCapture.Number.FloatText
import LogicCapture.Text.Quoted

/-!
# Failures

Everything that can go wrong, as causes. `Failure.message` holds the whole wording, and
`Failure.kind` says what sort of failure it is: a capture that cannot be decoded is told apart from
a request that makes no sense and from trouble with files.
-/

namespace LogicCapture

/-- Why an operation did not succeed. -/
inductive Failure where
  -- times
  | timeNotFinite (seconds : Float)
  | timeOutOfRange (seconds : Float)
  | timeOverflow
  | zeroRate
  | integerTooLarge
  -- binary captures
  | emptyBinary
  | taggedHeaderTruncated
  | legacyHeaderTruncated
  | unsupportedHeader (fileId : Nat) (version : Int)
  | unsupportedVersion (version : Int)
  | unsupportedDataKind (raw : Int)
  | chunkCountInvalid (count : Int)
  | digitalV0Truncated
  | digitalV1Truncated
  | transitionCountInvalid (count : Int)
  | transitionsV0Truncated (declared remaining : Int)
  | transitionsV1Truncated (declared remaining : Int)
  | analogV0Truncated
  | analogV1Truncated
  | waveformTruncated
  | sampleRateV0Zero
  | downsampleV0Zero
  | sampleRateV1Invalid (rate : Float)
  | downsampleV1Invalid (downsample : Int)
  | samplesV0Truncated (declared remaining : Int)
  | samplesV1Truncated (declared remaining : Int)
  -- analyzer exports
  | headerEmpty
  | columnsMissing (roles : List Csv.Role)
  | timeMissing (column : String)
  | timeInvalid (column text : String)
  | headerMissing
  -- detection
  | unrecognised (source : String)
  | unknownFormat (name : String)
  | pieceSizeZero
  | pieceSizeNegative
  | pieceSizeTooLarge
  | pieceTooLong
  | outOfMemory
  | unknownEncoding (name : String)
  | unsuitableEncoding (name : String)
  | unencodable (reason : String)
  | undecodable (reason : String)
  -- tables
  | indexOutOfRange
  | indexTooLarge
  | unknownTrackKind (name : String)
  | wordOverflow
  | numberTooLarge (n : Int)
  | unknownTableFormat (name : String)
  -- files
  | inputMissing (path : String)
  | isDirectory
  | notDirectory
  | fileExists
  | directoryMissing (path : String)
  | pathTooLong
  | pathTooDeep
  | pathHoldsNul
  | placeOutOfReach
  -- the command line
  | chunkSizeMissing
  deriving Repr

namespace Failure

/-- The sorts of failure. -/
inductive Kind where
  /-- the capture cannot be decoded -/
  | malformedCapture
  /-- the request names something that does not exist or makes no sense -/
  | badRequest
  /-- a number is too large to compute with -/
  | overflow
  | divisionByZero
  | unknownEncoding
  /-- a codec refuses a text -/
  | textRefused
  | indexOutOfRange
  /-- something was asked for that is only there once a header has been read -/
  | notReady
  /-- a number does not fit its column -/
  | columnOverflow
  | fileMissing
  | isDirectory
  | notDirectory
  | fileExists
  /-- a path cannot be followed to its end -/
  | pathRefused
  | pathTooDeep
  | outOfMemory
  /-- a value is asked for its size and there is none -/
  | valueMissing
  deriving Repr, DecidableEq

def kind : Failure → Kind
  | timeOverflow | integerTooLarge | pieceSizeTooLarge | pieceTooLong
  | numberTooLarge _ => .overflow
  | zeroRate => .divisionByZero
  | unknownFormat _ | pieceSizeZero | pieceSizeNegative | unsuitableEncoding _ | unknownTrackKind _
  | unknownTableFormat _ | pathHoldsNul => .badRequest
  | unknownEncoding _ => .unknownEncoding
  | unencodable _ | undecodable _ => .textRefused
  | indexOutOfRange | indexTooLarge => .indexOutOfRange
  | headerMissing => .notReady
  | wordOverflow => .columnOverflow
  | inputMissing _ | directoryMissing _ => .fileMissing
  | isDirectory => .isDirectory
  | notDirectory => .notDirectory
  | fileExists => .fileExists
  | pathTooLong | placeOutOfReach => .pathRefused
  | pathTooDeep => .pathTooDeep
  | outOfMemory => .outOfMemory
  | chunkSizeMissing => .valueMissing
  | _ => .malformedCapture

/-- What is said about the part of an array that is not there. -/
def shortfall (declared remaining : Int) : String :=
  s!"({declared} declared, {remaining} bytes left)"

def message : Failure → String
  | timeNotFinite seconds => "Non-finite timestamp " ++ FloatStyle.message.write seconds
  | timeOutOfRange seconds => "Timestamp " ++ FloatStyle.message.write seconds ++ " s out of range"
  | timeOverflow => "cannot convert float infinity to integer"
  | zeroRate => "float division by zero"
  | integerTooLarge => "int too large to convert to float"
  | emptyBinary => "Empty Saleae binary data"
  | taggedHeaderTruncated => "Saleae v1 header truncated"
  | legacyHeaderTruncated => "Saleae v0 header truncated"
  | unsupportedHeader fileId version =>
    "Unsupported Saleae header (file id 0x" ++ hexadecimal 8 fileId ++ s!", version {version})"
  | unsupportedVersion version => s!"Unsupported Saleae version {version}"
  | unsupportedDataKind raw => s!"Unsupported Saleae data type {raw}"
  | chunkCountInvalid count => s!"Invalid Saleae chunk count {count}"
  | digitalV0Truncated => "Saleae digital v0 header truncated"
  | digitalV1Truncated => "Saleae digital chunk truncated"
  | transitionCountInvalid count => s!"Saleae digital transition count invalid ({count})"
  | transitionsV0Truncated declared remaining =>
    "Saleae digital v0 transitions truncated " ++ shortfall declared remaining
  | transitionsV1Truncated declared remaining =>
    "Saleae digital transitions truncated " ++ shortfall declared remaining
  | analogV0Truncated => "Saleae analog v0 header truncated"
  | analogV1Truncated => "Saleae analog v1 header truncated"
  | waveformTruncated => "Saleae analog v1 waveform truncated"
  | sampleRateV0Zero => "Saleae analog v0 sample rate invalid (0)"
  | downsampleV0Zero => "Saleae analog v0 downsample invalid (0)"
  | sampleRateV1Invalid rate =>
    "Saleae analog v1 sample rate invalid (" ++ FloatStyle.message.write rate ++ ")"
  | downsampleV1Invalid downsample => s!"Saleae analog v1 downsample invalid ({downsample})"
  | samplesV0Truncated declared remaining =>
    "Saleae analog v0 samples truncated " ++ shortfall declared remaining
  | samplesV1Truncated declared remaining =>
    "Saleae analog v1 samples truncated " ++ shortfall declared remaining
  | headerEmpty => "Saleae CSV header is empty"
  | columnsMissing roles =>
    "Saleae CSV header missing required columns (name, type, start_time, duration): missing " ++
      ", ".intercalate (roles.map Csv.Role.label)
  | timeMissing column => "Saleae CSV row missing " ++ column
  | timeInvalid column text => "Saleae CSV invalid " ++ column ++ " '" ++ text ++ "'"
  | headerMissing => "no header has been read"
  | unrecognised source => "Could not recognise " ++ source ++ " as a Saleae binary or CSV export"
  | unknownFormat name => "Unknown trace format: " ++ name
  | pieceSizeZero => "range() arg 3 must not be zero"
  | pieceSizeNegative => "read length must be non-negative or -1"
  | pieceSizeTooLarge => "cannot fit 'int' into an index-sized integer"
  | pieceTooLong => "byte string is too large"
  | outOfMemory => "out of memory"
  | unknownEncoding name => "unknown encoding: " ++ name
  | unsuitableEncoding name =>
    "Unsupported line encoding " ++ name ++ ": newline is not the single byte 0x0a"
  | unencodable reason => reason
  | undecodable reason => reason
  | indexOutOfRange => "list index out of range"
  | indexTooLarge => "cannot fit 'int' into an index-sized integer"
  | unknownTrackKind name => Text.quoted name ++ " is not a valid TrackKind"
  | wordOverflow => "a number does not fit its 64-bit column"
  | numberTooLarge n => s!"int value too large for Polars integer types: {n}"
  | unknownTableFormat name => "Unsupported table format: " ++ name
  | inputMissing path => "Input file not found: " ++ path
  | isDirectory => "is a directory"
  | notDirectory => "not a directory"
  | fileExists => "a file stands in the way"
  | directoryMissing path => "No such file or directory (os error 2): " ++ path
  | pathTooLong => "the path is too long"
  | pathTooDeep => "too many directories to make"
  | pathHoldsNul => "embedded null byte"
  | placeOutOfReach => "the place is out of reach"
  | chunkSizeMissing => "no chunk size is given"

end Failure

end LogicCapture
