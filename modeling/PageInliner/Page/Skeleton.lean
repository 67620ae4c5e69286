import PageInliner.Page.Embedding
import PageInliner.Text.Substitution

/-!
The built-in page: a title, a stylesheet, a script and the logic that starts it, each at its own place
in a fixed document. A stylesheet and a logic come with the page for those who bring none.
-/

set_option autoImplicit false

namespace PageInliner.Page

/-- The texts that fill the built-in page. -/
structure Filling where
  title : String
  style : String
  script : String
  app : String
  deriving Repr, DecidableEq

namespace Skeleton

/-- The title of a page that was given none. -/
def defaultTitle : String := "LXCLUA WebAssembly"

/-- The stylesheet that comes with the page. -/
def builtInStyle : String :=
  "body \x7b font-family: monospace; padding: 10px; background: #1e1e1e; color: #d4d4d4; \x7d\n" ++
  "#output \x7b background: #0d0d0d; padding: 10px; border-radius: 4px; white-space: pre-wrap; min-height: 200px; overflow: auto; \x7d\n" ++
  "#input \x7b width: 100%; padding: 8px; margin-top: 10px; background: #252526; color: #d4d4d4; border: 1px solid #3c3c3c; box-sizing: border-box; \x7d\n" ++
  "button \x7b padding: 8px 16px; margin-top: 10px; background: #0e639c; color: white; border: none; cursor: pointer; \x7d\n" ++
  "button:active \x7b background: #094771; \x7d\n"

/-- The logic that comes with the page: it starts the interpreter and runs what is typed in. -/
def builtInApp : String :=
  "var lua = null;\n" ++
  "var outputEl = document.getElementById('output');\n" ++
  "\n" ++
  "var Module = \x7b\n" ++
  "    print: function(text) \x7b outputEl.textContent += text + '\\n'; \x7d,\n" ++
  "    printErr: function(text) \x7b outputEl.textContent += '[ERR] ' + text + '\\n'; \x7d\n" ++
  "\x7d;\n" ++
  "\n" ++
  "LuaModule(Module).then(function(m) \x7b\n" ++
  "    lua = m;\n" ++
  "    outputEl.textContent = 'LXCLUA Ready!\\n';\n" ++
  "    m.callMain(['-v']);\n" ++
  "\x7d);\n" ++
  "\n" ++
  "function runLua() \x7b\n" ++
  "    if (!lua) return;\n" ++
  "    outputEl.textContent = '';\n" ++
  "    var code = document.getElementById('input').value;\n" ++
  "    lua.FS.writeFile('/tmp.lua', code);\n" ++
  "    lua.callMain(['/tmp.lua']);\n" ++
  "\x7d\n"

/-- What the page begins with, up to its title. -/
def opening : String :=
  "<!DOCTYPE html>\n" ++
  "<html>\n" ++
  "<head>\n" ++
  "    <meta charset=\"UTF-8\">\n" ++
  "    <meta name=\"viewport\" content=\"width=device-width, initial-scale=1.0\">\n" ++
  "    <title>"

/-- What stands between the title and the stylesheet. -/
def beforeStyle : String :=
  "</title>\n" ++
  "    <style>\n"

/-- What stands between the stylesheet and the heading, which is the title again. -/
def beforeHeading : String :=
  "\n" ++
  "    </style>\n" ++
  "</head>\n" ++
  "<body>\n" ++
  "    <h2>"

/-- What stands between the heading and the script. -/
def beforeScript : String :=
  "</h2>\n" ++
  "    <div id=\"output\">Loading...</div>\n" ++
  "    <textarea id=\"input\" rows=\"5\" placeholder=\"print('Hello LXCLUA!')\">print(_VERSION)\n" ++
  "for i=1,5 do print(i) end</textarea>\n" ++
  "    <br>\n" ++
  "    <button onclick=\"runLua()\">Run</button>\n" ++
  "\n" ++
  "    <script>\n"

/-- What stands between the script and the logic. -/
def beforeApp : String :=
  "\n" ++
  "    </script>\n" ++
  "    <script>\n"

/-- What the page ends with. -/
def closing : String :=
  "\n" ++
  "    </script>\n" ++
  "</body>\n" ++
  "</html>\n"

/-- The page around its places, each place marked by a name in capitals. The title has two places. -/
def page : String :=
  opening ++ "__TITLE__" ++ beforeStyle ++ "__STYLE__" ++ beforeHeading ++ "__TITLE__" ++
    beforeScript ++ "__SCRIPT__" ++ beforeApp ++ "__APP__" ++ closing

/-- The names of the places, with what belongs there. -/
def bindings (filling : Filling) : List (String × String) :=
  [("__TITLE__", filling.title), ("__STYLE__", filling.style), ("__SCRIPT__", filling.script),
    ("__APP__", filling.app)]

/-- The page with its places filled, each text as it is given. -/
def fill (filling : Filling) : String :=
  Text.replaceAll page (bindings filling)

end Skeleton

/-- What a built-in page is made of: its title and the assets whose texts go in. -/
structure Contents where
  title : String
  style : Asset
  script : Asset
  app : Asset
  deriving Repr, DecidableEq

/-- The built-in page with the title escaped and every asset in a form that can be embedded. -/
def fromContents (contents : Contents) : Except BuildError String := do
  let style ← embeddable contents.style
  let script ← embeddable contents.script
  let app ← embeddable contents.app
  return Skeleton.fill ⟨escaped contents.title, style, script, app⟩

end PageInliner.Page
