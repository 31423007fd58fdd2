namespace ThriftIdl

/-- The target a namespace statement is meant for; `all` is written as a star. -/
inductive NamespaceScope
  | all | cpp | java | py | pyTwisted | perl | rb | cocoa | csharp | php
  | smalltalkCategory | smalltalkPrefix | js | go | cGlib | delphi | haxe | netstd
  | lua | rs | swift
deriving DecidableEq, Repr

namespace NamespaceScope

def every : List NamespaceScope :=
  [all, cpp, java, py, pyTwisted, perl, rb, cocoa, csharp, php, smalltalkCategory,
    smalltalkPrefix, js, go, cGlib, delphi, haxe, netstd, lua, rs, swift]

def spelling : NamespaceScope → String
  | all => "*"
  | cpp => "cpp"
  | java => "java"
  | py => "py"
  | pyTwisted => "py.twisted"
  | perl => "perl"
  | rb => "rb"
  | cocoa => "cocoa"
  | csharp => "csharp"
  | php => "php"
  | smalltalkCategory => "smalltalk.category"
  | smalltalkPrefix => "smalltalk.prefix"
  | js => "js"
  | go => "go"
  | cGlib => "c_glib"
  | delphi => "delphi"
  | haxe => "haxe"
  | netstd => "netstd"
  | lua => "lua"
  | rs => "rs"
  | swift => "swift"

def ofSpelling? (name : String) : Option NamespaceScope :=
  every.find? fun scope => scope.spelling == name

end NamespaceScope

end ThriftIdl
