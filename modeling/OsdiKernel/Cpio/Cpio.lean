import OsdiKernel.Lib.Bytes
import OsdiKernel.ListHead

/-!
# `cpio.c`

The archive is scanned in memory, entry by entry: a header of 110 characters, the
name, the data, each padded so that the next begins at a multiple of four. What
the scan knows of an entry is what `cpio_parse_header` stores through its four
pointers, and where it returns early it has not stored all of it.

A read of an address that holds nothing faults.
-/

namespace OsdiKernel

/-- `*s` -/
def loadByte (mem : Memory) (addr : Nat) : Except Fault UInt8 :=
  match mem (addr % 2 ^ 64) with
  | some b => .ok b
  | none => .error .outOfBounds

/-- `s[i]`, for a `char *` -/
def charsAt (mem : Memory) (s : Nat) (i : Nat) : Except Fault UInt8 := loadByte mem (s + i)

/-- `s[i]`, for a string of the program's own -/
def literal (s : List UInt8) (i : Nat) : Except Fault UInt8 := .ok (s.getD i 0)

/-- The characters of a string, up to the NUL, in at most so many turns. -/
def readStringTurns (mem : Memory) (s : Nat) : Nat → Except Fault (List UInt8)
  | 0 => .error .spin
  | turns + 1 => do
      let c ← loadByte mem s
      if c = 0 then .ok []
      else do
        let cs ← readStringTurns mem (s + 1) turns
        .ok (c :: cs)

/-- What `printf("%s", s)` prints. A pointer that was never set cannot be followed. -/
def printString (mem : Memory) : Option Nat → Except Fault (List UInt8)
  | some s => readStringTurns mem s (2 ^ 64)
  | none => .error .uninitialised

/-- `CPIO_HEADER_MAGIC`: `"070701"` -/
def cpioHeaderMagic : List UInt8 := [48, 55, 48, 55, 48, 49]

/-- `CPIO_FOOTER_MAGIC`: `"TRAILER!!!"` -/
def cpioFooterMagic : List UInt8 := [84, 82, 65, 73, 76, 69, 82, 33, 33, 33]

/-- `CPIO_ALIGNMENT` -/
def cpioAlignment : Nat := 4

/-- `sizeof(struct cpio_header)` -/
def cpioHeaderSize : Nat := 110

/-- `offsetof(struct cpio_header, c_filesize)` -/
def filesizeOffset : Nat := 54

/-- `offsetof(struct cpio_header, c_namesize)` -/
def namesizeOffset : Nat := 94

/-- `align_up`, in `unsigned long`. -/
def alignUp (n align : Nat) : Nat := (n + align - 1) % 2 ^ 64 &&& (2 ^ 64 - align)

/-- What a character adds to a hexadecimal number. -/
def hexDigit (c : UInt8) : Option Nat :=
  if 48 ≤ c ∧ c ≤ 57 then some (c.toNat - 48)
  else if 97 ≤ c ∧ c ≤ 102 then some (c.toNat - 97 + 10)
  else if 65 ≤ c ∧ c ≤ 70 then some (c.toNat - 65 + 10)
  else none

/-- The loop of `parse_hex_str`, from `i` on, for so many turns. -/
def parseHexTurns (s : Nat → Except Fault UInt8) (r i : Nat) : Nat → Except Fault Nat
  | 0 => .ok r
  | turns + 1 => do
      let r := r * 16 % 2 ^ 64
      let c ← s i
      match hexDigit c with
      | some d => parseHexTurns s ((r + d) % 2 ^ 64) (i + 1) turns
      | none => .ok r

/-- `parse_hex_str` -/
def parseHexStr (s : Nat → Except Fault UInt8) (maxLen : Nat) : Except Fault Nat := parseHexTurns s 0 0 maxLen

/-- The loop of `cpio_strncmp`, from `i` on, for so many turns. -/
def cpioStrncmpTurns (a b : Nat → Except Fault UInt8) (i : Nat) : Nat → Except Fault Int
  | 0 => .ok 0
  | turns + 1 => do
      let x ← a i
      let y ← b i
      if x ≠ y then .ok (x.toNat - y.toNat)
      else if x = 0 then .ok 0
      else cpioStrncmpTurns a b (i + 1) turns

/-- `cpio_strncmp` -/
def cpioStrncmp (a b : Nat → Except Fault UInt8) (n : Nat) : Except Fault Int := cpioStrncmpTurns a b 0 n

/-- What `cpio_parse_header` returns, and what it stores through its pointers, if anything. -/
structure ParsedHeader where
  error : Int
  filename : Option Nat
  filesize : Option Nat
  data : Option Nat
  next : Option Nat
  deriving DecidableEq, Repr

/-- `cpio_parse_header` -/
def cpioParseHeader (mem : Memory) (archive : Nat) : Except Fault ParsedHeader := do
  let magic ← cpioStrncmp (charsAt mem archive) (literal cpioHeaderMagic) 6
  if magic ≠ 0 then .ok ⟨-1, none, none, none, none⟩
  else do
    let filesize ← parseHexStr (charsAt mem (archive + filesizeOffset)) 8
    let filename := (archive + cpioHeaderSize) % 2 ^ 64
    let footer ← cpioStrncmp (charsAt mem filename) (literal cpioFooterMagic) 11
    if footer = 0 then .ok ⟨1, some filename, none, none, none⟩
    else do
      let filenameLength ← parseHexStr (charsAt mem (archive + namesizeOffset)) 8
      let data := alignUp ((archive + cpioHeaderSize + filenameLength) % 2 ^ 64) cpioAlignment
      let next := alignUp ((data + filesize) % 2 ^ 64) cpioAlignment
      .ok ⟨0, some filename, some filesize, some data, some next⟩

/-- The loop of `cpio_get_file`: what it returns, and what is then in `*size`. -/
def cpioGetFileTurns (mem : Memory) (name header size : Nat) : Nat → Except Fault (Option Nat × Nat)
  | 0 => .error .spin
  | turns + 1 => do
      let p ← cpioParseHeader mem header
      let size := p.filesize.getD size
      let _ ← printString mem p.filename
      if p.error ≠ 0 then .ok (none, size)
      else
        match p.filename, p.data, p.next with
        | some currentFilename, some result, some next => do
            let c ← cpioStrncmp (charsAt mem currentFilename) (charsAt mem name) (2 ^ 64 - 1)
            if c = 0 then .ok (some result, size) else cpioGetFileTurns mem name next size turns
        | _, _, _ => .error .uninitialised

/-- `cpio_get_file`. A loop that has been at every address does not end. -/
def cpioGetFile (mem : Memory) (archive name size : Nat) : Except Fault (Option Nat × Nat) :=
  cpioGetFileTurns mem name archive size (2 ^ 64)

/-- The loop of `cpio_ls`: the names it prints. -/
def cpioLsTurns (mem : Memory) (header : Nat) : Nat → Except Fault (List (List UInt8))
  | 0 => .error .spin
  | turns + 1 => do
      let p ← cpioParseHeader mem header
      if p.error ≠ 0 then .ok []
      else do
        let name ← printString mem p.filename
        match p.next with
        | some next => do
            let names ← cpioLsTurns mem next turns
            .ok (name :: names)
        | none => .error .uninitialised

/-- `cpio_ls` -/
def cpioLs (mem : Memory) (archive : Nat) : Except Fault (List (List UInt8)) := cpioLsTurns mem archive (2 ^ 64)

end OsdiKernel
