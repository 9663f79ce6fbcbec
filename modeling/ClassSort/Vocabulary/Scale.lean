import ClassSort.Text.Basic

/-!
# Theme scales

A scale is a named set of values that utilities can take: `p-4` is a utility because
`4` is a key of the padding scale. The lengths behind the keys play no part in
ordering, so a scale is known by its keys alone. Scales that measure distances start
from the keys of the spacing scale and add their own.
-/

namespace ClassSort

/-- The scales that a theme can change. -/
inductive Scale where
  | spacing | inset | margin | padding | gap | space | translate | width | height
  | minWidth | maxWidth | minHeight | maxHeight | flexBasis | textIndent | scrollMargin
  | scrollPadding | fontSize | fontWeight | fontFamily | lineHeight | letterSpacing
  | borderRadius | borderWidth | opacity | zIndex | boxShadow | order
  | gridTemplateColumns | gridTemplateRows | gridColumn | gridRow | columns | rotate
  | scale | skew | transitionDuration | transitionDelay | transitionTimingFunction
  | transitionProperty | animation | blur | dropShadow | backgroundImage | aspectRatio
  | flex | flexGrow | flexShrink | outlineWidth | ringWidth
deriving Repr, DecidableEq

namespace Scale

/-- All scales, in order. -/
def all : List Scale :=
  [.spacing, .inset, .margin, .padding, .gap, .space, .translate, .width, .height, .minWidth,
   .maxWidth, .minHeight, .maxHeight, .flexBasis, .textIndent, .scrollMargin, .scrollPadding,
   .fontSize, .fontWeight, .fontFamily, .lineHeight, .letterSpacing, .borderRadius, .borderWidth,
   .opacity, .zIndex, .boxShadow, .order, .gridTemplateColumns, .gridTemplateRows, .gridColumn,
   .gridRow, .columns, .rotate, .scale, .skew, .transitionDuration, .transitionDelay,
   .transitionTimingFunction, .transitionProperty, .animation, .blur, .dropShadow,
   .backgroundImage, .aspectRatio, .flex, .flexGrow, .flexShrink, .outlineWidth, .ringWidth]

/-- The name of a scale in a configuration. -/
def name : Scale → String
  | .spacing => "spacing"
  | .inset => "inset"
  | .margin => "margin"
  | .padding => "padding"
  | .gap => "gap"
  | .space => "space"
  | .translate => "translate"
  | .width => "width"
  | .height => "height"
  | .minWidth => "minWidth"
  | .maxWidth => "maxWidth"
  | .minHeight => "minHeight"
  | .maxHeight => "maxHeight"
  | .flexBasis => "flexBasis"
  | .textIndent => "textIndent"
  | .scrollMargin => "scrollMargin"
  | .scrollPadding => "scrollPadding"
  | .fontSize => "fontSize"
  | .fontWeight => "fontWeight"
  | .fontFamily => "fontFamily"
  | .lineHeight => "lineHeight"
  | .letterSpacing => "letterSpacing"
  | .borderRadius => "borderRadius"
  | .borderWidth => "borderWidth"
  | .opacity => "opacity"
  | .zIndex => "zIndex"
  | .boxShadow => "boxShadow"
  | .order => "order"
  | .gridTemplateColumns => "gridTemplateColumns"
  | .gridTemplateRows => "gridTemplateRows"
  | .gridColumn => "gridColumn"
  | .gridRow => "gridRow"
  | .columns => "columns"
  | .rotate => "rotate"
  | .scale => "scale"
  | .skew => "skew"
  | .transitionDuration => "transitionDuration"
  | .transitionDelay => "transitionDelay"
  | .transitionTimingFunction => "transitionTimingFunction"
  | .transitionProperty => "transitionProperty"
  | .animation => "animation"
  | .blur => "blur"
  | .dropShadow => "dropShadow"
  | .backgroundImage => "backgroundImage"
  | .aspectRatio => "aspectRatio"
  | .flex => "flex"
  | .flexGrow => "flexGrow"
  | .flexShrink => "flexShrink"
  | .outlineWidth => "outlineWidth"
  | .ringWidth => "ringWidth"

/-- The scale with a given name. -/
def ofName? (name : String) : Option Scale := all.find? (·.name == name)

/-- Whether the built-in keys of a scale start from the spacing scale. -/
def measuresDistance : Scale → Bool
  | .inset | .margin | .padding | .gap | .space | .translate | .width | .height
  | .maxHeight | .flexBasis | .textIndent | .scrollMargin | .scrollPadding => true
  | _ => false

/-- The built-in keys of a scale, without those of the spacing scale. -/
def ownKeys : Scale → List String
  | .spacing =>
    ["0", "px", "0.5", "1", "1.5", "2", "2.5", "3", "3.5", "4", "5", "6", "7", "8", "9", "10",
     "11", "12", "14", "16", "20", "24", "28", "32", "36", "40", "44", "48", "52", "56", "60",
     "64", "72", "80", "96"]
  | .inset | .translate => ["1/2", "1/3", "2/3", "1/4", "2/4", "3/4", "full"]
  | .margin => ["auto"]
  | .padding | .gap | .space | .textIndent | .scrollMargin | .scrollPadding => []
  | .width =>
    ["auto", "1/2", "1/3", "2/3", "1/4", "2/4", "3/4", "1/5", "2/5", "3/5", "4/5", "1/6", "2/6",
     "3/6", "4/6", "5/6", "1/12", "2/12", "3/12", "4/12", "5/12", "6/12", "7/12", "8/12", "9/12",
     "10/12", "11/12", "full", "screen", "svw", "lvw", "dvw", "min", "max", "fit"]
  | .height =>
    ["auto", "1/2", "1/3", "2/3", "1/4", "2/4", "3/4", "1/5", "2/5", "3/5", "4/5", "1/6", "2/6",
     "3/6", "4/6", "5/6", "full", "screen", "svh", "lvh", "dvh", "min", "max", "fit"]
  | .minWidth => ["0", "full", "min", "max", "fit"]
  | .maxWidth =>
    ["0", "none", "xs", "sm", "md", "lg", "xl", "2xl", "3xl", "4xl", "5xl", "6xl", "7xl", "full",
     "min", "max", "fit", "prose", "screen-sm", "screen-md", "screen-lg", "screen-xl",
     "screen-2xl"]
  | .minHeight => ["0", "full", "screen", "min", "max", "fit"]
  | .maxHeight => ["none", "full", "screen", "min", "max", "fit"]
  | .flexBasis =>
    ["auto", "1/2", "1/3", "2/3", "1/4", "2/4", "3/4", "1/5", "2/5", "3/5", "4/5", "1/6", "5/6",
     "1/12", "5/12", "7/12", "11/12", "full"]
  | .fontSize =>
    ["xs", "sm", "base", "lg", "xl", "2xl", "3xl", "4xl", "5xl", "6xl", "7xl", "8xl", "9xl"]
  | .fontWeight =>
    ["thin", "extralight", "light", "normal", "medium", "semibold", "bold", "extrabold", "black"]
  | .fontFamily => ["sans", "serif", "mono"]
  | .lineHeight =>
    ["3", "4", "5", "6", "7", "8", "9", "10", "none", "tight", "snug", "normal", "relaxed",
     "loose"]
  | .letterSpacing => ["tighter", "tight", "normal", "wide", "wider", "widest"]
  | .borderRadius => ["none", "sm", "DEFAULT", "md", "lg", "xl", "2xl", "3xl", "full"]
  | .borderWidth => ["DEFAULT", "0", "2", "4", "8"]
  | .opacity =>
    ["0", "5", "10", "15", "20", "25", "30", "35", "40", "45", "50", "55", "60", "65", "70", "75",
     "80", "85", "90", "95", "100"]
  | .zIndex => ["0", "10", "20", "30", "40", "50", "auto"]
  | .boxShadow => ["sm", "DEFAULT", "md", "lg", "xl", "2xl", "inner", "none"]
  | .order =>
    ["1", "2", "3", "4", "5", "6", "7", "8", "9", "10", "11", "12", "first", "last", "none"]
  | .gridTemplateColumns | .gridTemplateRows =>
    ["1", "2", "3", "4", "5", "6", "7", "8", "9", "10", "11", "12", "none", "subgrid"]
  | .gridColumn | .gridRow =>
    ["auto", "span-1", "span-2", "span-3", "span-4", "span-5", "span-6", "span-7", "span-8",
     "span-9", "span-10", "span-11", "span-12", "span-full"]
  | .columns =>
    ["1", "2", "3", "4", "5", "6", "7", "8", "9", "10", "11", "12", "auto", "3xs", "2xs", "xs",
     "sm", "md", "lg", "xl", "2xl", "3xl", "4xl", "5xl", "6xl", "7xl"]
  | .rotate => ["0", "1", "2", "3", "6", "12", "45", "90", "180"]
  | .scale => ["0", "50", "75", "90", "95", "100", "105", "110", "125", "150"]
  | .skew => ["0", "1", "2", "3", "6", "12"]
  | .transitionDuration | .transitionDelay =>
    ["0", "75", "100", "150", "200", "300", "500", "700", "1000"]
  | .transitionTimingFunction => ["DEFAULT", "linear", "in", "out", "in-out"]
  | .transitionProperty => ["none", "all", "DEFAULT", "colors", "opacity", "shadow", "transform"]
  | .animation => ["none", "spin", "ping", "pulse", "bounce"]
  | .blur => ["0", "none", "sm", "DEFAULT", "md", "lg", "xl", "2xl", "3xl"]
  | .dropShadow => ["sm", "DEFAULT", "md", "lg", "xl", "2xl", "none"]
  | .backgroundImage =>
    ["none", "gradient-to-t", "gradient-to-tr", "gradient-to-r", "gradient-to-br",
     "gradient-to-b", "gradient-to-bl", "gradient-to-l", "gradient-to-tl"]
  | .aspectRatio => ["auto", "square", "video"]
  | .flex => ["1", "auto", "initial", "none"]
  | .flexGrow | .flexShrink => ["0", "DEFAULT"]
  | .outlineWidth => ["0", "1", "2", "4", "8"]
  | .ringWidth => ["DEFAULT", "0", "1", "2", "4", "8"]

end Scale

/-- Colors without shades. -/
def flatColors : List String := ["inherit", "current", "transparent", "black", "white"]

/-- Colors that come in shades. -/
def palette : List String :=
  ["slate", "gray", "zinc", "neutral", "stone", "red", "orange", "amber", "yellow", "lime",
   "green", "emerald", "teal", "cyan", "sky", "blue", "indigo", "violet", "purple", "fuchsia",
   "pink", "rose"]

/-- The shades of each color of the palette. -/
def shades : List String :=
  ["50", "100", "200", "300", "400", "500", "600", "700", "800", "900", "950"]

/-- The built-in color names. -/
def builtinColors : List String :=
  flatColors ++ palette.flatMap fun color => shades.map fun shade => color ++ "-" ++ shade

end ClassSort
