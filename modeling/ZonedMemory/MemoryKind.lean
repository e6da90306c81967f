namespace ZonedMemory

/-!
What a range of physical memory is used for.
-/

inductive MemoryKind where
  /-- Free memory that pages may be handed out from. -/
  | usable
  | reserved
  /-- Used by the bootloader until its data has been read. -/
  | bootloaderReclaimable
  /-- Firmware tables that may be dropped once they have been parsed. -/
  | acpiReclaimable
  | acpiNvs
  /-- Firmware tables that have to stay. -/
  | acpiTables
  | kernelImage
  | framebuffer
  | mmio
  | badMemory
  | unknown
  /-- Taken out of usable memory for the page records. -/
  | allocatorMetadata
  deriving DecidableEq

namespace MemoryKind

/-- All kinds in the order in which they are shown. -/
def all : List MemoryKind :=
  [usable, reserved, bootloaderReclaimable, acpiReclaimable, acpiNvs, acpiTables, kernelImage,
    framebuffer, mmio, badMemory, unknown, allocatorMetadata]

/-- The place of a kind in `all`. -/
def index : MemoryKind → Fin 12
  | usable => 0
  | reserved => 1
  | bootloaderReclaimable => 2
  | acpiReclaimable => 3
  | acpiNvs => 4
  | acpiTables => 5
  | kernelImage => 6
  | framebuffer => 7
  | mmio => 8
  | badMemory => 9
  | unknown => 10
  | allocatorMetadata => 11

def name : MemoryKind → String
  | usable => "usable"
  | reserved => "reserved"
  | bootloaderReclaimable => "bootloader reclaimable"
  | acpiReclaimable => "ACPI reclaimable"
  | acpiNvs => "ACPI NVS"
  | acpiTables => "ACPI tables"
  | kernelImage => "kernel image"
  | framebuffer => "framebuffer"
  | mmio => "MMIO"
  | badMemory => "bad memory"
  | unknown => "unknown"
  | allocatorMetadata => "allocator metadata"

/-- The kind as a single word, by which it can be read back. -/
def describe : MemoryKind → String
  | usable => "Usable"
  | reserved => "Reserved"
  | bootloaderReclaimable => "BootloaderReclaimable"
  | acpiReclaimable => "AcpiReclaimable"
  | acpiNvs => "AcpiNvs"
  | acpiTables => "AcpiTables"
  | kernelImage => "KernelImage"
  | framebuffer => "Framebuffer"
  | mmio => "Mmio"
  | badMemory => "BadMemory"
  | unknown => "Unknown"
  | allocatorMetadata => "AllocatorMetadata"

/-- The kind that `describe` shows as the given word. -/
def ofWord? (word : String) : Option MemoryKind :=
  all.find? fun kind => kind.describe == word

/-- The kind of an entry of a Limine memory map, by its type number. -/
def ofLimine : Nat → MemoryKind
  | 0 => usable
  | 1 => reserved
  | 2 => acpiReclaimable
  | 3 => acpiNvs
  | 4 => badMemory
  | 5 => bootloaderReclaimable
  | 6 => kernelImage
  | 7 => framebuffer
  | _ => unknown

end MemoryKind

end ZonedMemory
