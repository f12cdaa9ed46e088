import ZigNif.Text.Basic

/-!
# Harness — the program that reports on a module

The harness is a Zig program that imports the staged source and prints a report on the functions it
makes public.
-/

namespace ZigNif.Harness

/-- The name of the harness file. -/
def fileName : Text := "sema.zig"

/-- The harness for a staged file. -/
def source (staged : Text) : Text := Text.unlines
  ["// this code is autogenerated, do not check it into source control",
    "const std = @import(\"std\");",
    "const nif = @import(\"" ++ staged ++ "\");",
    "",
    "fn typeName(comptime T: ?type) []const u8 \x7b",
    "    return if (T) |t| @typeName(t) else \"anytype\";",
    "\x7d",
    "",
    "pub fn main() !void \x7b",
    "    const out = std.io.getStdOut().writer();",
    "    try out.writeAll(\"\x7b\\\"functions\\\":[\");",
    "    var first = true;",
    "    inline for (@typeInfo(nif).Struct.decls) |decl| \x7b",
    "        const T = @TypeOf(@field(nif, decl.name));",
    "        if (@typeInfo(T) == .Fn) \x7b",
    "            if (!first) try out.writeAll(\",\");",
    "            first = false;",
    "            try out.print(\"\x7b\x7b\\\"name\\\":\\\"\x7bs\x7d\\\",\\\"params\\\":[\", .\x7bdecl.name\x7d);",
    "            inline for (@typeInfo(T).Fn.params, 0..) |param, index| \x7b",
    "                if (index != 0) try out.writeAll(\",\");",
    "                try out.print(\"\\\"\x7bs\x7d\\\"\", .\x7btypeName(param.type)\x7d);",
    "            \x7d",
    "            try out.print(\"],\\\"returns\\\":\\\"\x7bs\x7d\\\"\x7d\x7d\", .\x7btypeName(@typeInfo(T).Fn.return_type)\x7d);",
    "        \x7d",
    "    \x7d",
    "    try out.writeAll(\"]\x7d\\n\");",
    "\x7d",
    ""]

end ZigNif.Harness
