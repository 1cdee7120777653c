import Embassies.Lib.LittleEndian

/-! The format of a zarfile: `zarfile.h`.

    A header says where the index of paths, the strings and the table of chunks are. They are structures of
    words as an i386 has them in memory; the flag of a chunk is a byte, with three bytes of padding behind it. -/

namespace Embassies.Zarfile

/-- `ZF_Zhdr`. -/
structure ZFZhdr where
  zMagic : ℕ
  zVersion : ℕ
  zPathNum : ℕ
  zPathOff : ℕ
  zPathEntsz : ℕ
  zStrtabOff : ℕ
  zStrtabLen : ℕ
  zDbgZarfileLen : ℕ
  zChunktabOff : ℕ
  zChunktabCount : ℕ
  zChunktabEntsz : ℕ
  deriving DecidableEq, Repr

/-- `ZF_Chdr`: where a chunk is in the zarfile, and which bytes of its file it has. -/
structure ZFChdr where
  zFileOff : ℕ
  zDataOff : ℕ
  zDataLen : ℕ
  zPrecious : Bool
  deriving DecidableEq, Repr

/-- `ZF_Phdr`, with the two words of its `protocol_metadata`. -/
structure ZFPhdr where
  zPathStrOff : ℕ
  zPathStrLen : ℕ
  zFileLen : ℕ
  zChunkIdx : ℕ
  zChunkCount : ℕ
  fileLenNetworkOrder : ℕ
  flags : ℕ
  deriving DecidableEq, Repr

/-- `Z_MAGIC`: the word of the characters ZARF. -/
def zMagic : ℕ := ofLE [0x5a, 0x41, 0x52, 0x46]

/-- `Z_VERSION`. -/
def zVersion : ℕ := 0x00010002

/-- `sizeof(ZF_Phdr)`. -/
def sizeofPhdr : ℕ := 28

/-- `sizeof(ZF_Chdr)`. -/
def sizeofChdr : ℕ := 16

end Embassies.Zarfile
