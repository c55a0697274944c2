import FrameworkAudit.Metadata.Token
import FrameworkAudit.Text.Utf8

set_option autoImplicit false

namespace FrameworkAudit

inductive Defect where
  | noOptionalHeader
  | noRuntimeHeader
  | sectionOverflow (address size : Nat)
  | unmappedAddress (address : Nat)
  | runtimeHeaderSize (found : Nat)
  | noMetadataDirectory
  | rootMagic (found : Nat)
  | streamCount (found : Nat)
  | streamOverflow (offset size : Nat)
  | streamPastEnd (name : String) (stop length : Nat)
  | streamNameUnterminated
  | streamNameUnknown (name : String)
  | noTablesStream
  | stringsHeap
  | stringIndex (index : Nat)
  | blobHeap
  | noTables
  | tablePastEnd (table : TableId) (stop length : Nat)
  | tableTooShort (table : TableId) (needed available : Nat)
  | rowOutOfRange (table : TableId) (row count : Nat)
  | compressedNumber (first : Nat)
  | compressedToken (value : Nat)
  | textAt (offset : Nat) (fault : Text.Utf8.Fault)
  | genericBase (found : Nat)
  | elementType (found : Nat)
  | arrayRank (rank : Nat)
  | arraySizes (count rank : Nat)
  | arrayLowerBounds (count rank : Nat)
  | secondSentinel
  | fieldStart (found : Nat)
  | noIdentityRow
  | referenceTokenLength (length : Nat)
  | attributeProlog (found : Nat)
  | rowUnavailable (table : TableId) (row : Nat)
  | scopeUnavailable (typeRef assemblyRef : Nat)
  | notAType (token : Token)
  | unnamedGeneric
  | emptyName
  | keyTokenHex (text fault : String)
  | keyTokenLength (length : Nat) (text : String)
  | versionFormat (text : String)
  | versionComponent (text : String)
  deriving DecidableEq, Repr

def Defect.message : Defect → String
  | .noOptionalHeader => "File does not have an OptionalHeader"
  | .noRuntimeHeader => "File does not have a CLR runtime header directory"
  | .sectionOverflow address size =>
    s!"Section malformed, causing integer overflow - {address} + {size}"
  | .unmappedAddress address =>
    "RVA could not be converted to offset - 0x" ++ Text.Hex.natural address
  | .runtimeHeaderSize found => s!"Invalid CLR header size: expected 72, got {found}"
  | .noMetadataDirectory => "CLR header has no metadata directory"
  | .rootMagic found => "CIL_HEADER_MAGIC does not match - 0x" ++ Text.Hex.natural found
  | .streamCount found => s!"Invalid stream count - {found}"
  | .streamOverflow offset size =>
    s!"Stream offset and size cause integer overflow - {offset} + {size}"
  | .streamPastEnd name stop length =>
    s!"Stream {name} ends at {stop} past the metadata end {length}"
  | .streamNameUnterminated => "Stream header name is not terminated"
  | .streamNameUnknown name => s!"Invalid stream header name - {name}"
  | .noTablesStream => "Metadata has no tables stream"
  | .stringsHeap => "Provided #Strings heap is invalid"
  | .stringIndex index => s!"Invalid string at index - {index}"
  | .blobHeap => "Invalid memory for #Blob heap"
  | .noTables => "No valid rows in any of the tables"
  | .tablePastEnd table stop length =>
    s!"Table {table.name} ends at {stop} past the stream end {length}"
  | .tableTooShort table needed available =>
    s!"Table {table.name} needs {needed} bytes, only {available} available"
  | .rowOutOfRange table row count =>
    s!"Row {row} out of range for {table.name} ({count} rows)"
  | .compressedNumber first => s!"Invalid compressed uint - {first}"
  | .compressedToken value => s!"Invalid compressed token - {value}"
  | .textAt offset fault => s!"Invalid UTF-8 string at offset {offset} - {fault.message}"
  | .genericBase found =>
    s!"GENERICINST - Next byte is not TYPE_CLASS or TYPE_VALUE - {found}"
  | .elementType found => "Unsupported ELEMENT_TYPE - 0x" ++ Text.Hex.natural found
  | .arrayRank rank => s!"Invalid array rank - {rank}"
  | .arraySizes count rank => s!"Array declares {count} sizes for rank {rank}"
  | .arrayLowerBounds count rank => s!"Array declares {count} lower bounds for rank {rank}"
  | .secondSentinel => "Method signature has two sentinels"
  | .fieldStart found => "SignatureField - invalid start - 0x" ++ Text.Hex.natural found
  | .noIdentityRow => "Metadata has neither an Assembly nor a Module row"
  | .referenceTokenLength length => s!"AssemblyRef public key token has {length} bytes"
  | .attributeProlog found =>
    "Invalid custom attribute prolog - 0x" ++ Text.Hex.natural found
  | .rowUnavailable table row => s!"{table.name} row {row} is not available"
  | .scopeUnavailable typeRef assemblyRef =>
    s!"TypeRef row {typeRef} is scoped to the unavailable AssemblyRef row {assemblyRef}"
  | .notAType token => s!"Token {token.text} does not name a type"
  | .unnamedGeneric => "Generic instance is not over a named type"
  | .emptyName => "Assembly name cannot be empty"
  | .keyTokenHex text fault => s!"Invalid hex in PublicKeyToken '{text}': {fault}"
  | .keyTokenLength length text =>
    s!"PublicKeyToken must be exactly 8 bytes, got {length} from '{text}'"
  | .versionFormat text => s!"Invalid version format: {text}"
  | .versionComponent text => s!"Invalid version component: {text}"

end FrameworkAudit
