import Resin.Script.Fragment

/-!
# Preambles

The text that stands in front of a script: the bookkeeping of declared types and the reading of
input lines, each only if the script relies on it.
-/

namespace Resin.Preamble

/-- Lines of text, each with its line feed. -/
def lines (ls : List String) : String :=
  String.join (ls.map (· ++ "\n"))

/-- The bookkeeping of declared types. A type is one of four categories: number, boolean, array
and other. -/
def types : String := lines
  ["class EpoxyTypeError extends TypeError \x7b",
    "    constructor(message) \x7b",
    "        super(message);",
    "        this.name = \"EpoxyTypeError\";",
    "    \x7d",
    "\x7d",
    "const __epx_types = new Map();",
    "function __epx_normalize(type) \x7b",
    "    switch (type) \x7b",
    "        case \"int\":",
    "        case \"double\":",
    "            return \"number\";",
    "        case \"bool\":",
    "            return \"boolean\";",
    "        case \"array\":",
    "            return \"array\";",
    "        default:",
    "            return \"other\";",
    "    \x7d",
    "\x7d",
    "function __epx_category(value) \x7b",
    "    if (typeof value === \"number\") return \"number\";",
    "    if (typeof value === \"boolean\") return \"boolean\";",
    "    if (Array.isArray(value)) return \"array\";",
    "    return \"other\";",
    "\x7d",
    "function __epx_check(what, expected, value) \x7b",
    "    const actual = __epx_category(value);",
    "    if (actual !== expected) \x7b",
    "        throw new EpoxyTypeError(`$\x7bwhat\x7d expects $\x7bexpected\x7d but got $\x7bactual\x7d ($\x7bJSON.stringify(value)\x7d)`);",
    "    \x7d",
    "\x7d",
    "function __epx_register(name, type, ...value) \x7b",
    "    const expected = __epx_normalize(type);",
    "    __epx_types.set(name, expected);",
    "    if (value.length > 0) \x7b",
    "        __epx_check(`'$\x7bname\x7d' declared as $\x7btype\x7d`, expected, value[0]);",
    "    \x7d",
    "    return value[0];",
    "\x7d",
    "function __epx_validate(name, value) \x7b",
    "    if (__epx_types.has(name)) \x7b",
    "        __epx_check(`'$\x7bname\x7d'`, __epx_types.get(name), value);",
    "    \x7d",
    "    return value;",
    "\x7d",
    "function __epx_forget(name, value) \x7b",
    "    __epx_types.delete(name);",
    "    return value;",
    "\x7d",
    "function __epx_returns(fn, type, value) \x7b",
    "    __epx_check(`function '$\x7bfn\x7d' returning $\x7btype\x7d`, __epx_normalize(type), value);",
    "    return value;",
    "\x7d"]

/-- The reading of one line of input, as a value if it is one in JSON and else as a text. -/
def input : String := lines
  ["const __epx_input = (() => \x7b",
    "    const fs = require(\"fs\");",
    "    return () => \x7b",
    "        const bytes = [];",
    "        const buffer = Buffer.alloc(1);",
    "        for (;;) \x7b",
    "            let read = 0;",
    "            try \x7b",
    "                read = fs.readSync(0, buffer, 0, 1, null);",
    "            \x7d catch (e) \x7b",
    "                if (e.code === \"EAGAIN\") continue;",
    "                if (e.code === \"EOF\") break;",
    "                throw e;",
    "            \x7d",
    "            if (read === 0 || buffer[0] === 10) break;",
    "            bytes.push(buffer[0]);",
    "        \x7d",
    "        const line = Buffer.from(bytes).toString(\"utf8\").replace(/\\r$/, \"\");",
    "        try \x7b",
    "            return JSON.parse(line);",
    "        \x7d catch (_) \x7b",
    "            return line;",
    "        \x7d",
    "    \x7d;",
    "\x7d)();"]

/-- A whole script: the preambles that the code relies on, the code and a line feed. -/
def attach (code : Fragment) : String :=
  (if code.features.types then types else "") ++ (if code.features.input then input else "") ++
    code.code ++ "\n"

end Resin.Preamble
