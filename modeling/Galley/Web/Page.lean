import Galley.Keyword.Case

/-!
The pages that are served: a form to try the formatter with, and an explanation.
-/

namespace Galley.Web.Page

/-- What stands on every page before its content. -/
def before : List String := [
  "<!DOCTYPE html>",
  "<html>",
  "<head>",
  "<meta http-equiv=\"Content-Type\" content=\"text/html; charset=utf-8\">",
  "<title>boxfmt</title>",
  "<style>",
  ":root \x7b",
  "  --primary: #6200ee;",
  "  --background: #ffffff;",
  "  --on-background: #000000;",
  "  --dp01: #f2f2f2;",
  "\x7d",
  "@media (prefers-color-scheme: dark) \x7b",
  "  :root \x7b",
  "    --primary: #bb86fc;",
  "    --background: #121212;",
  "    --on-background: #ffffff;",
  "    --dp01: #1e1e1e;",
  "  \x7d",
  "\x7d",
  "body \x7b",
  "  font-family: sans-serif;",
  "  background-color: var(--background);",
  "  color: var(--on-background);",
  "  max-width: 60em;",
  "  margin: auto;",
  "  padding: 0 1em;",
  "\x7d",
  "a \x7b color: var(--primary); \x7d",
  "textarea, pre \x7b",
  "  background-color: var(--dp01);",
  "  color: var(--on-background);",
  "  font-family: monospace;",
  "\x7d",
  "</style>",
  "</head>",
  "<body>"]

/-- What stands on every page after its content. -/
def after : List String := [
  "</body>",
  "</html>"]

/-- The explanation. -/
def aboutContent : List String := [
  "",
  "<h1>about</h1>",
  "<p>",
  "boxfmt formats SQL, JSON and YAML within a target line width.",
  "Groups of tokens are laid out flat when they fit and broken across lines when they do not,",
  "deciding as it reads so that arbitrarily long inputs take bounded memory.",
  "</p>",
  "",
  "<h2>Usage</h2>",
  "",
  "<p>Paste statements in the box. The slider sets the target line width.",
  "Comments between SQL statements are kept; runs of blank lines are collapsed.</p>",
  "",
  "<h3>compact:</h3>",
  "<pre>",
  "SELECT a, b,",
  "    c",
  "FROM t",
  "WHERE c",
  "    AND b",
  "</pre>",
  "",
  "<h3>expanded:</h3>",
  "<pre>",
  "SELECT",
  "    a,",
  "    b,",
  "    c",
  "FROM t",
  "WHERE c",
  "    AND b",
  "</pre>",
  "",
  "<hr>",
  "<a href=\"/\">index</a>",
  ""]

/-- The form up to the choice of a keyword case. -/
def formStart : List String := [
  "",
  "<h1>boxfmt</h1>",
  "<p>Type some SQL, JSON or YAML. Move the slider to set output width.</p>",
  "",
  "<form name=\"theform\" method=\"get\" action=\"/fmt\">",
  "<div style=\"display: flex; flex-wrap: wrap\">",
  "\t<div style=\"flex: 1; margin-right: 4px\">",
  "\t\t<textarea id=\"src\" name=\"src\" style=\"box-sizing: border-box; width: 100%; height: 200px\" onInput=\"range()\"></textarea>",
  "\t\t<input type=\"range\" min=\"1\" max=\"200\" step=\"1\" name=\"n\" value=\"60\" onInput=\"range()\" id=\"n\" style=\"width: 100%\">",
  "\t</div>",
  "\t<div style=\"width: 150px\">",
  "\t\t<h4 style=\"margin: 0\">options:</h4>",
  "\t\t<select name=\"lang\" id=\"lang\" onChange=\"range()\">",
  "\t\t\t<option>sql</option>",
  "\t\t\t<option>json</option>",
  "\t\t\t<option>yaml</option>",
  "\t\t</select>",
  "\t\t<br><select name=\"case\" id=\"case\" onChange=\"range()\">"]

/-- The form after the choice of a keyword case, and the script behind it. -/
def formRest : List String := [
  "\t\t</select>",
  "\t\t<br><label for=\"indent\">tab width</label>",
  "\t\t<input type=\"number\" min=\"1\" max=\"16\" step=\"1\" name=\"indent\" value=\"4\" onInput=\"range()\" id=\"indent\">",
  "\t\t<br><input type=\"checkbox\" onChange=\"range()\" name=\"spaces\" id=\"spaces\"><label for=\"spaces\">use spaces</label>",
  "\t\t<br><input type=\"checkbox\" onChange=\"range()\" name=\"expanded\" id=\"expanded\"><label for=\"expanded\">expanded</label>",
  "\t</div>",
  "</div>",
  "target line width: <span id=\"nval\"></span>",
  "<br><input type=\"submit\" id=\"submitButton\">",
  "</form>",
  "",
  "<pre id=\"fmt\" style=\"padding: 5px 0; overflow-x: auto\"></pre>",
  "",
  "<a href=\"/about\">about</a>",
  "<script>",
  "document.getElementById('submitButton').style.display = 'none';",
  "const el = id => document.getElementById(id);",
  "function range() \x7b",
  "\tconst q = new URLSearchParams(\x7b",
  "\t\tjson: 1,",
  "\t\tn: el('n').value,",
  "\t\tindent: el('indent').value,",
  "\t\tlang: el('lang').value,",
  "\t\tcase: el('case').value,",
  "\t\tspaces: el('spaces').checked ? 1 : 0,",
  "\t\texpanded: el('expanded').checked ? 1 : 0,",
  "\t\tsrc: el('src').value,",
  "\t\x7d);",
  "\tel('nval').innerText = el('n').value;",
  "\tel('fmt').style['tab-size'] = el('indent').value;",
  "\tfetch('/fmt?' + q).then(resp => resp.json()).then(data => \x7b",
  "\t\tel('fmt').innerText = data.Data;",
  "\t\x7d, console.log);",
  "\x7d",
  "range();",
  "</script>",
  ""]

/-- The choice of a keyword case; upper case is preselected. -/
def option (c : Keyword.Case) : Text :=
  ("<option" : Text) ++ (if c = .upper then " selected" else "" : String) ++ (">" : Text) ++
    c.name ++ ("</option>" : Text)

/-- A page around its content. -/
def around (content : Text) : Text :=
  Text.ofLines before ++ [0x0a] ++ content ++ [0x0a] ++ Text.ofLines after

/-- The page with the form. -/
def index : Text :=
  around (Text.ofLines formStart ++ ("\n\t\t" : Text) ++ Keyword.Case.all.flatMap option ++ [0x0a] ++
    Text.ofLines formRest)

/-- The page with the explanation. -/
def about : Text := around (Text.ofLines aboutContent)

end Galley.Web.Page
