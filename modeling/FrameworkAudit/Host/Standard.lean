import FrameworkAudit.Host.Executable
import FrameworkAudit.Host.Hex
import FrameworkAudit.Host.Sha1

set_option autoImplicit false

namespace FrameworkAudit

def Defect.place : Defect → Place
  | .noOptionalHeader => ⟨"file/mod", 149⟩
  | .noRuntimeHeader => ⟨"file/mod", 152⟩
  | .sectionOverflow _ _ => ⟨"file/mod", 175⟩
  | .unmappedAddress _ => ⟨"file/mod", 188⟩
  | .compressedNumber _ => ⟨"file/parser", 139⟩
  | .compressedToken _ => ⟨"file/parser", 181⟩
  | .textAt _ _ => ⟨"file/parser", 204⟩
  | .runtimeHeaderSize _ => ⟨"metadata/cor20header", 39⟩
  | .noMetadataDirectory => ⟨"metadata/cor20header", 51⟩
  | .rootMagic _ => ⟨"metadata/root", 42⟩
  | .streamCount _ => ⟨"metadata/root", 61⟩
  | .streamOverflow _ _ => ⟨"metadata/root", 73⟩
  | .streamPastEnd _ _ _ => ⟨"metadata/root", 80⟩
  | .streamNameUnterminated => ⟨"metadata/streams/streamheader", 33⟩
  | .streamNameUnknown _ => ⟨"metadata/streams/streamheader", 37⟩
  | .noTablesStream => ⟨"metadata/view", 43⟩
  | .stringsHeap => ⟨"metadata/streams/strings", 17⟩
  | .stringIndex _ => ⟨"metadata/streams/strings", 36⟩
  | .blobHeap => ⟨"metadata/streams/blob", 16⟩
  | .noTables => ⟨"metadata/streams/tablesheader", 43⟩
  | .tablePastEnd _ _ _ => ⟨"metadata/streams/tablesheader", 63⟩
  | .tableTooShort _ _ _ => ⟨"metadata/tables/types/mod", 52⟩
  | .rowOutOfRange _ _ _ => ⟨"metadata/tables/types/mod", 94⟩
  | .genericBase _ => ⟨"metadata/signatures/parser", 102⟩
  | .elementType _ => ⟨"metadata/signatures/parser", 121⟩
  | .arrayRank _ => ⟨"metadata/signatures/parser", 133⟩
  | .arraySizes _ _ => ⟨"metadata/signatures/parser", 140⟩
  | .arrayLowerBounds _ _ => ⟨"metadata/signatures/parser", 152⟩
  | .secondSentinel => ⟨"metadata/signatures/parser", 198⟩
  | .fieldStart _ => ⟨"metadata/signatures/parser", 223⟩
  | .noIdentityRow => ⟨"metadata/extractor", 466⟩
  | .referenceTokenLength _ => ⟨"metadata/extractor", 479⟩
  | .attributeProlog _ => ⟨"metadata/extractor", 505⟩
  | .rowUnavailable .memberRef _ => ⟨"docid/resolver", 66⟩
  | .rowUnavailable .typeRef _ => ⟨"docid/resolver", 103⟩
  | .scopeUnavailable _ _ => ⟨"docid/resolver", 117⟩
  | .rowUnavailable .typeDef _ => ⟨"docid/resolver", 138⟩
  | .rowUnavailable _ _ => ⟨"docid/resolver", 161⟩
  | .notAType _ => ⟨"docid/resolver", 166⟩
  | .unnamedGeneric => ⟨"docid/resolver", 231⟩
  | .emptyName => ⟨"metadata/identity/assembly", 130⟩
  | .keyTokenHex _ _ => ⟨"metadata/identity/assembly", 194⟩
  | .keyTokenLength _ _ => ⟨"metadata/identity/assembly", 197⟩
  | .versionFormat _ => ⟨"metadata/identity/assembly", 232⟩
  | .versionComponent _ => ⟨"metadata/identity/assembly", 239⟩

/-- The host of the program itself. Its threads take their turns in the order of the tasks. -/
instance Host.standard : Host where
  executable := Executable.parse
  hexText := Text.Hex.encode
  hexBytes text := (Text.Hex.decode text).mapError Text.Hex.Fault.message
  digest := Sha1.digest
  turns _ := []
  place := Defect.place

end FrameworkAudit
