/-!
Words of the language that have a meaning of their own.
-/

namespace Demacro.Keyword

/-- The words that builtin arithmetic types are made of. -/
def arithmeticTypes : List String :=
  ["bool", "char", "wchar_t", "char8_t", "char16_t", "char32_t", "short", "int", "long", "signed",
    "unsigned", "float", "double"]

/-- Words that may stand beside the words of a type. -/
def typeQualifiers : List String :=
  ["const", "volatile"]

/-- The casts that are written with a word. -/
def namedCasts : List String :=
  ["static_cast", "const_cast", "reinterpret_cast", "dynamic_cast"]

/-- All reserved words. None of them is the name of a variable. -/
def reserved : List String :=
  ["alignas", "alignof", "and", "and_eq", "asm", "auto", "bitand", "bitor",
    "bool", "break", "case", "catch", "char", "char8_t", "char16_t",
    "char32_t", "class", "compl", "concept", "const", "consteval",
    "constexpr", "constinit", "const_cast", "continue", "co_await",
    "co_return", "co_yield", "decltype", "default", "delete", "do", "double",
    "dynamic_cast", "else", "enum", "explicit", "export", "extern", "false",
    "float", "for", "friend", "goto", "if", "inline", "int", "long",
    "mutable", "namespace", "new", "noexcept", "not", "not_eq", "nullptr",
    "operator", "or", "or_eq", "private", "protected", "public", "register",
    "reinterpret_cast", "requires", "return", "short", "signed", "sizeof",
    "static", "static_assert", "static_cast", "struct", "switch", "template",
    "this", "thread_local", "throw", "true", "try", "typedef", "typeid",
    "typename", "union", "unsigned", "using", "virtual", "void", "volatile",
    "wchar_t", "while", "xor", "xor_eq"]

/-- The words that belong to statements and to no expression. -/
def statements : List String :=
  ["break", "case", "continue", "default", "do", "else", "for", "goto", "if", "return", "switch",
    "try", "while"]

/-- The names of the null pointer. -/
def nullPointers : List String :=
  ["nullptr", "NULL"]

/-- Operators that may be spelled as words. -/
def operatorWords : List (String × String) :=
  [("and", "&&"), ("or", "||"), ("not", "!"), ("bitand", "&"), ("bitor", "|"), ("xor", "^"),
    ("compl", "~"), ("not_eq", "!="), ("and_eq", "&="), ("or_eq", "|="), ("xor_eq", "^=")]

end Demacro.Keyword
