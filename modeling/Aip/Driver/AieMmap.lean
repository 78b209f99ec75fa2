import Mathlib.Algebra.Order.Ring.Int
import Mathlib.Algebra.Order.Ring.Nat
import Mathlib.Data.List.Basic

/-! `__aie_mmap` and `__aie_munmap` of the NNA library, with what they acquire and give back. -/

namespace Aip.AieMmap

/-- The device files that are opened. -/
inductive Device where
  | mem
  | socNna
  | nnaLock
  deriving DecidableEq, Repr

/-- What is mapped, by the variable that keeps the address. -/
inductive Area where
  | l2cacheSize
  | nndmaIo
  | nndmaDesram
  | oram
  | ddr
  | nndmaFastio
  deriving DecidableEq, Repr

/-- `soc_nna_buf_t`. -/
structure SocNnaBuf where
  vaddr : Nat
  paddr : Nat
  size : Int
  deriving DecidableEq, Repr

/-- `struct user_nmem`. -/
structure UserNmem where
  size : Int
  paddr : Int
  deriving DecidableEq, Repr

/-- `struct nmem_size_buf`. -/
structure NmemSizeBuf where
  versionBuf : Nat
  nmemExtensionBuf : Nat
  nmemPaddr : Nat
  nmemSize : Nat
  deriving DecidableEq, Repr

/-- What has to be given back: a descriptor, a mapping, the stream of a file, or memory of the
kernel with the structure that names it. -/
inductive Resource where
  | descriptor (fd : Int)
  | mapping (addr len : Nat)
  | stream
  | nmem (unmem : UserNmem)
  | nna (buf : SocNnaBuf)
  deriving DecidableEq, Repr

/-- An address of a mapping, which is never null unless it is asked for. -/
abbrev Address := { addr : Nat // addr ≠ 0 }

/-- What the system answers; `none` is `MAP_FAILED`, a stream that is not there, or a negative
result of a request. -/
structure Env where
  /-- `open`, with whether the file is opened with `O_SYNC`. -/
  openFile : Device → Bool → Int
  /-- `mmap` of so many bytes of a file from an offset on. -/
  mmap : Area → Int → Nat → Nat → Option Address
  /-- The word at the address behind which the size of the cache is read. -/
  gpio : Nat → Nat
  /-- `/proc/cmdline`: whether it can be opened, and the text that is read from it, if any. -/
  cmdline : Option (Option (List Char))
  nmemInit : Int → UserNmem → Option UserNmem
  nmemUninit : Int → UserNmem → Bool
  nnaMalloc : Int → SocNnaBuf → Option SocNnaBuf
  version : Int → NmemSizeBuf → Bool
  /-- `ddr_memory_init`. -/
  ddrMemoryInit : Nat → Nat → Bool

/-- The arguments of `__aie_mmap`. -/
structure Args where
  ddrMemSize : Int
  bUseRmem : Int
  desramCacheAttr : UInt32
  oramCacheAttr : UInt32
  ddrCacheAttr : UInt32

/-- The variables of the file. -/
structure Statics where
  memfd : Int := -1
  nnafd : Int := -1
  nnalockfd : Int := -1
  bUseRmem : Int := 0
  multiprocessChoose : Int := 0
  nndmaIoVbase : Nat := 0
  nndmaDesramVbase : Nat := 0
  oramVbase : Nat := 0
  ddrVbase : Nat := 0
  ddrPbase : Nat := 0
  nndmaFastioVbase : Nat := 0
  desramCacheAttr : UInt32 := 0
  oramCacheAttr : UInt32 := 0
  ddrCacheAttr : UInt32 := 0
  ddrNnaBuf : SocNnaBuf := ⟨0, 0, 0⟩
  unmem : UserNmem := ⟨0, 0⟩
  l2cacheSizeVaddr : Nat := 0
  l2cacheSizeGpio : Nat := 0
  l2cacheSize : Nat := 0
  oramRealSize : Nat := 0
  oramBase : Nat := 0

/-- The variables of the file and of the call, and all that was acquired and given back. -/
structure World extends Statics where
  ddrMemSize : Int := 0
  rmemSize : Int := 0
  acquired : List Resource := []
  released : List Resource := []

/-- The labels behind which `__aie_mmap` gives back what it has, in their order. -/
inductive Label where
  | errDdrMemoryInit
  | errMmapFastio
  | errMmapDdrNna
  | errIoctlNnaMalloc
  | errGetRmemInfo
  | errMmapOram
  | errMmapNndmaDesram
  | errMmapNndmaIo
  | errOramRealSize
  | errOpenNnaLock
  | errOpenSocNna
  | errOpenMem
  | errIoctlNnaVersion
  deriving DecidableEq, Repr

/-- How a step ends that does not go on. -/
inductive Stop where
  | crash (w : World)
  | goto (label : Label) (w : World)

def nnaUncached : UInt32 := 0x1
def nnaUncachedAccelerated : UInt32 := 0x2
def nnaCached : UInt32 := 0x4

def nndmaDesramBase : Nat := 0x12500000
def nndmaDesramSize : Nat := 16 * 1024
def nndmaIoBase : Nat := 0x12508000
def nndmaIoSize : Nat := 0x20
def fastioSize : Nat := 0x1000
def l2cacheSizeBase : Nat := 0x12200000
def l2cacheSizeLen : Nat := 0x1000
def driversVersion : Nat := 0x41

/-- `MAP_FAILED` as it is kept in a pointer. -/
def mapFailed : Nat := 2 ^ 32 - 1

/-- The value that a `uint32_t` keeps. -/
def u32 (value : Int) : Nat := (value % 2 ^ 32).toNat

namespace World

variable (w : World)

def acquire (r : Resource) : World := { w with acquired := w.acquired ++ [r] }

def release (rs : List Resource) : World := { w with released := w.released ++ rs }

/-- What `close` gives back. -/
def closing (fd : Int) : List Resource := if fd < 0 then [] else [.descriptor fd]

/-- The test of a descriptor that has been stored. -/
def checkOpen (fd : Int) (label : Label) : Except Stop World :=
  if fd < 0 then .error (.goto label w) else .ok (w.acquire (.descriptor fd))

/-- The test of an address that has been stored. -/
def checkMap (addr : Option Address) (len : Nat) (label : Label) : Except Stop World :=
  match addr with
  | none => .error (.goto label w)
  | some addr => .ok (w.acquire (.mapping addr len))

end World

/-- An answer of `mmap` as it is kept in a pointer. -/
def pointer : Option Address → Nat
  | none => mapFailed
  | some addr => addr

section Cmdline

/-- The digits in front of a text as a number. -/
def scanDigits (base : Nat) (digit : Char → Option Nat) (text : List Char) :
    Option (Nat × List Char) :=
  let digits := text.takeWhile fun c => (digit c).isSome
  if digits = [] then none
  else some (digits.foldl (fun value c => value * base + (digit c).getD 0) 0,
    text.drop digits.length)

/-- The sign in front of a number, behind blanks. -/
def scanSign (text : List Char) : Bool × List Char :=
  match text.dropWhile Char.isWhitespace with
  | '-' :: rest => (true, rest)
  | '+' :: rest => (false, rest)
  | rest => (false, rest)

/-- `%d`, with numbers that are too large for a `long` cut off. -/
def scanInt (text : List Char) : Option (Int × List Char) :=
  let (negative, rest) := scanSign text
  (scanDigits 10 (fun c => if c.isDigit then some (c.toNat - '0'.toNat) else none) rest).map
    fun (value, rest) => (if negative then max (-value) (-2 ^ 31) else min value (2 ^ 31 - 1), rest)

/-- The value of a hexadecimal digit. -/
def hexDigit (c : Char) : Option Nat :=
  if c.isDigit then some (c.toNat - '0'.toNat)
  else if 'a' ≤ c ∧ c ≤ 'f' then some (c.toNat - 'a'.toNat + 10)
  else if 'A' ≤ c ∧ c ≤ 'F' then some (c.toNat - 'A'.toNat + 10)
  else none

/-- `%x`, with numbers that are too large for an `unsigned long` cut off. -/
def scanHex (text : List Char) : Option Nat :=
  let (negative, rest) := scanSign text
  let rest := match rest with
    | '0' :: x :: rest => if x = 'x' ∨ x = 'X' then rest else '0' :: x :: rest
    | rest => rest
  (scanDigits 16 hexDigit rest).map fun (value, _) =>
    if value < 2 ^ 32 then u32 (if negative then -value else value) else 2 ^ 32 - 1

/-- `sscanf(p, "nmem=%dM@%x", &size, &addr)` for either unit, from zero in both. -/
def scanNmem (unit : Char) (p : List Char) : Int × Nat :=
  if "nmem=".toList.isPrefixOf p then
    match scanInt (p.drop 5) with
    | none => (0, 0)
    | some (size, u :: '@' :: rest) => if u = unit then (size, (scanHex rest).getD 0) else (size, 0)
    | some (size, _) => (size, 0)
  else (0, 0)

/-- What the text says about the reserved memory. -/
inductive Nmem where
  /-- The text has no `nmem`, or the number in front of the `@` has no unit. -/
  | missing
  /-- There is no `@` behind the `nmem`, and the character in front of it is read all the same. -/
  | crash
  | found (addr : Nat) (size : Int)
  deriving DecidableEq, Repr

/-- The part of `get_nmem_info` that looks at the text. -/
def nmemOf (text : List Char) : Nmem :=
  match text.tails.find? fun p => "nmem".toList.isPrefixOf p with
  | none => .missing
  | some p =>
    if '@' ∉ p then .crash
    else match (p.takeWhile (· ≠ '@')).getLast? with
      | some 'M' => .found (scanNmem 'M' p).2 (((scanNmem 'M' p).1 * 1024 * 1024).bmod (2 ^ 32))
      | some 'K' => .found (scanNmem 'K' p).2 (((scanNmem 'K' p).1 * 1024).bmod (2 ^ 32))
      | _ => .missing

end Cmdline

/-- The steps of `__aie_mmap` in their order. -/
inductive Stage where
  | openMem
  | openSocNna
  | openNnaLock
  | oramL2cache
  | nndmaIo
  | nndmaDesram
  | oram
  | nmemInfo
  | ddrAlloc
  | version
  | ddr
  | nndmaFastio
  | ddrMemoryInit
  deriving DecidableEq, Repr

section Steps

variable (env : Env) (w : World)

/-- The descriptor that `open` answers with for each of the files. -/
def openAs : Device → Int
  | .mem => env.openFile .mem true
  | .socNna => env.openFile .socNna (w.ddrCacheAttr &&& nnaCached = 0)
  | .nnaLock => env.openFile .nnaLock false

/-- The address that `mmap` answers with for each of the areas, none of which is extended. -/
def mapAs : Area → Option Address
  | .l2cacheSize => env.mmap .l2cacheSize w.memfd l2cacheSizeLen l2cacheSizeBase
  | .nndmaIo => env.mmap .nndmaIo w.memfd nndmaIoSize nndmaIoBase
  | .nndmaDesram =>
    let fd := if w.desramCacheAttr &&& nnaUncachedAccelerated ≠ 0 then w.nnafd else w.memfd
    env.mmap .nndmaDesram fd nndmaDesramSize nndmaDesramBase
  | .oram =>
    let fd := if w.oramCacheAttr &&& nnaUncachedAccelerated ≠ 0 then w.nnafd else w.memfd
    env.mmap .oram fd w.oramRealSize w.oramBase
  | .ddr =>
    let fd := if w.ddrCacheAttr &&& nnaUncached ≠ 0 then w.memfd else w.nnafd
    env.mmap .ddr fd (u32 w.ddrMemSize) w.ddrPbase
  | .nndmaFastio => env.mmap .nndmaFastio w.memfd fastioSize (w.ddrPbase &&& 0x0fffffff)

/-- `open("/dev/mem", ...)`. -/
def openMem : Except Stop World :=
  { w with memfd := openAs env w .mem }.checkOpen (openAs env w .mem) .errOpenMem

/-- `open("/dev/soc-nna", ...)`. -/
def openSocNna : Except Stop World :=
  { w with nnafd := openAs env w .socNna }.checkOpen (openAs env w .socNna) .errOpenSocNna

/-- `open("/dev/nna_lock", ...)`, for several processes only. -/
def openNnaLock : Except Stop World :=
  if w.multiprocessChoose ≠ 0 then
    { w with nnalockfd := openAs env w .nnaLock }.checkOpen (openAs env w .nnaLock) .errOpenNnaLock
  else .ok w

/-- The size of the cache that the register names, or the one that was known before. -/
def cacheSize (gpio known : Nat) : Nat :=
  match (gpio &&& 0x1c00) >>> 10 with
  | 1 => 128 * 1024
  | 2 => 256 * 1024
  | 3 => 512 * 1024
  | 4 => 1024 * 1024
  | _ => known

/-- `get_oram_l2cache`; the size it returns is kept in an unsigned variable, and tested there. -/
def getOramL2cache : Except Stop World :=
  let addr := mapAs env w .l2cacheSize
  let w := { w with oramBase := 0x12600000, l2cacheSizeVaddr := pointer addr }
  match addr with
  -- `MAP_FAILED` is not the null pointer that is looked for, and is read through.
  | none => .error (.crash w)
  | some addr =>
    let w := w.acquire (.mapping addr l2cacheSizeLen)
    let gpio := env.gpio addr
    let size := cacheSize gpio w.l2cacheSize
    .ok { w with
      l2cacheSizeGpio := gpio
      l2cacheSize := size
      oramBase := u32 (w.oramBase + size)
      oramRealSize := u32 (512 * 1024 - size) }

/-- The mapping of the registers of the NNDMA. -/
def mapNndmaIo : Except Stop World :=
  let addr := mapAs env w .nndmaIo
  { w with nndmaIoVbase := pointer addr }.checkMap addr nndmaIoSize .errMmapNndmaIo

/-- The mapping of the descriptors of the NNDMA. -/
def mapNndmaDesram : Except Stop World :=
  let addr := mapAs env w .nndmaDesram
  { w with nndmaDesramVbase := pointer addr }.checkMap addr nndmaDesramSize .errMmapNndmaDesram

/-- The mapping of the on-chip memory. -/
def mapOram : Except Stop World :=
  let addr := mapAs env w .oram
  { w with oramVbase := pointer addr }.checkMap addr w.oramRealSize .errMmapOram

/-- `get_nmem_info`, which is called whether its result is used or not. -/
def getNmemInfo : Except Stop World :=
  match env.cmdline with
  | none => .error (.goto .errGetRmemInfo w)
  | some text =>
    let w := w.acquire .stream
    match text.map nmemOf with
    | none | some .missing => .error (.goto .errGetRmemInfo (w.release [.stream]))
    | some .crash => .error (.crash w)
    | some (.found addr size) =>
      let w := { w with ddrNnaBuf := { w.ddrNnaBuf with paddr := addr }, rmemSize := size }
      if addr = 0 ∨ size = 0 then .error (.goto .errGetRmemInfo (w.release [.stream]))
      else .ok (w.release [.stream])

/-- The memory for the data: all that is reserved, a part of it, or memory of the NNA driver. -/
def allocDdr : Except Stop World :=
  if w.bUseRmem ≠ 0 then
    if w.ddrMemSize = 0 then
      .ok { w with
        ddrMemSize := w.rmemSize
        ddrNnaBuf := { w.ddrNnaBuf with size := w.rmemSize }
        ddrPbase := w.ddrNnaBuf.paddr }
    else
      let w := { w with unmem := { w.unmem with size := w.ddrMemSize } }
      match env.nmemInit w.nnalockfd w.unmem with
      | none => .error (.goto .errGetRmemInfo w)
      | some unmem =>
        .ok ({ w with
          unmem := unmem
          ddrPbase := u32 unmem.paddr
          ddrMemSize := unmem.size }.acquire (.nmem unmem))
  else
    match env.nnaMalloc w.nnafd w.ddrNnaBuf with
    | none => .error (.goto .errIoctlNnaMalloc w)
    | some buf => .ok ({ w with ddrNnaBuf := buf }.acquire (.nna buf))

/-- What the driver is told with the request for its version. -/
def versionBuf : NmemSizeBuf :=
  { versionBuf := driversVersion, nmemExtensionBuf := 0, nmemPaddr := w.ddrPbase
    nmemSize := u32 w.ddrMemSize }

/-- The request for the version, whose failure leaves by the last label of all. -/
def askVersion : Except Stop World :=
  if env.version w.nnafd (versionBuf w) then .ok w else .error (.goto .errIoctlNnaVersion w)

/-- The mapping of the memory for the data. -/
def mapDdr : Except Stop World :=
  let addr := mapAs env w .ddr
  { w with ddrVbase := pointer addr }.checkMap addr (u32 w.ddrMemSize) .errMmapDdrNna

/-- The mapping of the fast registers. -/
def mapFastio : Except Stop World :=
  let addr := mapAs env w .nndmaFastio
  { w with nndmaFastioVbase := pointer addr }.checkMap addr fastioSize .errMmapFastio

/-- `ddr_memory_init`. -/
def initDdrMemory : Except Stop World :=
  if env.ddrMemoryInit w.ddrVbase (u32 w.ddrMemSize) then .ok w
  else .error (.goto .errDdrMemoryInit w)

/-- A step of `__aie_mmap`. -/
def Stage.perform : Stage → Except Stop World
  | openMem => AieMmap.openMem env w
  | openSocNna => AieMmap.openSocNna env w
  | openNnaLock => AieMmap.openNnaLock env w
  | oramL2cache => getOramL2cache env w
  | nndmaIo => mapNndmaIo env w
  | nndmaDesram => mapNndmaDesram env w
  | oram => mapOram env w
  | nmemInfo => getNmemInfo env w
  | ddrAlloc => allocDdr env w
  | version => askVersion env w
  | ddr => mapDdr env w
  | nndmaFastio => mapFastio env w
  | ddrMemoryInit => initDdrMemory env w

end Steps

/-- All steps in their order. -/
def stages : List Stage :=
  [.openMem, .openSocNna, .openNnaLock, .oramL2cache, .nndmaIo, .nndmaDesram, .oram, .nmemInfo,
    .ddrAlloc, .version, .ddr, .nndmaFastio, .ddrMemoryInit]

/-- Several steps, up to the first one that does not go on. -/
def performAll (env : Env) : List Stage → World → Except Stop World
  | [], w => .ok w
  | stage :: rest, w =>
    match stage.perform env w with
    | .error stop => .error stop
    | .ok w => performAll env rest w

/-- What the statements behind a label give back, up to the next label. -/
def rung (w : World) : Label → List Resource
  | .errDdrMemoryInit => [.mapping w.nndmaFastioVbase fastioSize]
  | .errMmapFastio => [.mapping w.ddrVbase (u32 w.ddrMemSize)]
  | .errMmapDdrNna =>
    if w.bUseRmem ≠ 0 then
      if w.multiprocessChoose ≠ 0 then [.nmem w.unmem] else []
    else [.nna w.ddrNnaBuf]
  | .errIoctlNnaMalloc => []
  | .errGetRmemInfo => [.mapping w.oramVbase w.oramRealSize]
  | .errMmapOram => [.mapping w.nndmaDesramVbase nndmaDesramSize]
  | .errMmapNndmaDesram => [.mapping w.nndmaIoVbase nndmaIoSize]
  | .errMmapNndmaIo => [.mapping w.l2cacheSizeVaddr l2cacheSizeLen]
  | .errOramRealSize => World.closing w.nnalockfd
  | .errOpenNnaLock => World.closing w.nnafd
  | .errOpenSocNna => World.closing w.memfd
  | .errOpenMem | .errIoctlNnaVersion => []

/-- The variables that these statements reset. -/
def reset (w : World) : Label → World
  | .errOramRealSize => { w with nnalockfd := -1 }
  | .errOpenNnaLock => { w with nnafd := -1 }
  | .errOpenSocNna => { w with memfd := -1 }
  | _ => w

/-- All labels from top to bottom. -/
def ladder : List Label :=
  [.errDdrMemoryInit, .errMmapFastio, .errMmapDdrNna, .errIoctlNnaMalloc, .errGetRmemInfo,
    .errMmapOram, .errMmapNndmaDesram, .errMmapNndmaIo, .errOramRealSize, .errOpenNnaLock,
    .errOpenSocNna, .errOpenMem, .errIoctlNnaVersion]

/-- The labels from one on, which are all run through. -/
def below (label : Label) : List Label := ladder.dropWhile (· ≠ label)

/-- What happens behind a label. -/
def unwind (w : World) (label : Label) : World :=
  (below label).foldl (fun w label => reset (w.release (rung w label)) label) w

/-- How a call ends. -/
inductive Outcome where
  | crashed
  | returned (code : Int)
  deriving DecidableEq, Repr

/-- The variables after the assignments at the start of `__aie_mmap`. -/
def enter (args : Args) (entry : Statics) : World :=
  { entry with
    bUseRmem := args.bUseRmem
    multiprocessChoose := args.ddrMemSize
    desramCacheAttr := args.desramCacheAttr
    oramCacheAttr := args.oramCacheAttr
    ddrCacheAttr := args.ddrCacheAttr
    ddrMemSize := args.ddrMemSize
    rmemSize := 0
    acquired := []
    released := [] }

/-- `__aie_mmap`. -/
def aieMmap (env : Env) (args : Args) (entry : Statics) : Outcome × World :=
  match performAll env stages (enter args entry) with
  | .ok w => (.returned 0, w)
  | .error (.goto label w) => (.returned (-1), unwind w label)
  | .error (.crash w) => (.crashed, w)

/-- `__aie_munmap`. -/
def aieMunmap (env : Env) (w : World) : Outcome × World :=
  let w := w.release [.mapping w.nndmaFastioVbase fastioSize]
  let w := w.release [.mapping w.ddrVbase (u32 w.ddrNnaBuf.size)]
  if w.bUseRmem ≠ 0 ∧ w.multiprocessChoose ≠ 0 ∧ env.nmemUninit w.nnalockfd w.unmem = false then
    (.returned (-1), w)
  else
    let w := w.release (if w.bUseRmem ≠ 0 then
      if w.multiprocessChoose ≠ 0 then [.nmem w.unmem] else [] else [.nna w.ddrNnaBuf])
    let w := w.release [.mapping w.oramVbase w.oramRealSize]
    let w := w.release [.mapping w.nndmaDesramVbase nndmaDesramSize]
    let w := w.release [.mapping w.nndmaIoVbase nndmaIoSize]
    let w := if w.multiprocessChoose ≠ 0 then
      { w.release (World.closing w.nnalockfd) with nnalockfd := -1 } else w
    let w := { w.release (World.closing w.nnafd) with nnafd := -1 }
    (.returned 0, { w.release (World.closing w.memfd) with memfd := -1 })

end Aip.AieMmap
