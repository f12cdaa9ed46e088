import ZigNif.Toolchain

/-!
# Format — formatting of source files

Generated files are left alone, and so is every file that is not Zig.
-/

namespace ZigNif.Format

/-- How generated files start. -/
def generatedMark : Text := "// this code is autogenerated"

/-- The source as the compiler formats it, unless it is generated. -/
def source (t : Toolchain) (contents : Text) : Build Text :=
  if generatedMark.isPrefixOf contents then pure contents else t.formatSource contents

/-- Formats a file in place; whether that changed it. -/
def file (t : Toolchain) (p : Path) : Build Bool := do
  if p.suffix ≠ ".zig" then return false
  let before ← Build.readText p
  let formatted ← source t before
  if formatted = before then return false
  Build.writeText p formatted
  return true

end ZigNif.Format
