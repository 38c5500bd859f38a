import ConfigSampler.Compression.Gzip
import ConfigSampler.Dimacs.Reader

/-!
# Formulas from bytes

A formula arrives as UTF-8 text, or, in a file, as a gzip member that holds such a text.
-/

set_option autoImplicit false

namespace ConfigSampler.Dimacs

/-- Reads a formula from the bytes of a text. -/
def parseStream (mode : Mode) (bytes : Array UInt8) : Except SampleError Cnf × Journal :=
  match Text.Utf8.decode bytes.toList with
  | .error _ => (.error (.file .streamNotText), #[])
  | .ok text => parseText mode text

/-- Reads a formula from the bytes of a file, which may be a gzip file. -/
def parseFile (mode : Mode) (bytes : Array UInt8) : Except SampleError Cnf × Journal :=
  if Compression.isGzip bytes then
    match Compression.gunzip bytes with
    | .error fault => (.error (.file (.compressed fault)), #[])
    | .ok expanded => parseStream mode expanded
  else
    match Text.Utf8.decode bytes.toList with
    | .error fault => (.error (.file (.notText fault)), #[])
    | .ok text => parseText mode text

end ConfigSampler.Dimacs
