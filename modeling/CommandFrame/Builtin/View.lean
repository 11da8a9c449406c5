import CommandFrame.Command

/-!
# Viewers

A viewer shows a file or a text that is given in the line.  Its result is what
would be displayed.
-/

namespace CommandFrame.Builtin

inductive ViewKind
  | image
  | svg
  | html
  | markdown
  | text
  deriving DecidableEq, Repr

namespace ViewKind

def all : List ViewKind := [image, svg, html, markdown, text]

def name : ViewKind → Text
  | image => "image"
  | svg => "svg"
  | html => "html"
  | markdown => "markdown"
  | text => "text"

def declarations : List Declaration :=
  [.group .required,
    .argument "-file" .string "file" "file to show", .refine (.group 1), .refine .path,
    .argument "-text" .string "text" "inline contents to show", .refine (.group 1),
    .argument "-width" .integer "width" "width in pixels",
    .argument "-height" .integer "height" "height in pixels"]

theorem isOk_declarations (kind : ViewKind) :
    (Schema.build kind.name declarations).isOk = true := by
  cases kind <;> decide

def size? (bindings : Bindings) : Option (Int × Int) :=
  if bindings.has "width" || bindings.has "height" then
    some (bindings.intOr "width" (-1), bindings.intOr "height" (-1))
  else none

def render (kind : ViewKind) (content source : Text) (size : Option (Int × Int)) : Text :=
  match kind, size with
  | image, some (width, height) =>
      "image: " ++ source ++ " (" ++ Text.ofInt width ++ "x" ++ Text.ofInt height ++ ")"
  | image, none => "image: " ++ source
  | html, _ =>
      if Text.startsWith "<html>" content then content else "<html>" ++ content ++ "</html>"
  | svg, _ | markdown, _ | text, _ => content

def load (kind : ViewKind) (tree : FileTree) (path file : Text) : Except CommandError Text :=
  match kind with
  | image => if tree.isFile path then .ok [] else .error (.noImage file)
  | svg | html | markdown | text => (tree.readText path).mapError fun cause => .file cause file

end ViewKind

def view (kind : ViewKind) : Command where
  schema := .ofDeclarations kind.name ViewKind.declarations kind.isOk_declarations
  run := fun surroundings session bindings =>
    let size := ViewKind.size? bindings
    if bindings.has "text" then
      .ok (session, kind.render (bindings.strOr "text" []) "<text>" size)
    else
      let file := bindings.strOr "file" []
      let path := session.filePath surroundings.host file
      (kind.load surroundings.host.tree path file).map fun content =>
        (session, kind.render content file size)

end CommandFrame.Builtin
