import ClassSort.Vocabulary.Rule

/-!
# The built-in families

All families of utilities, in the order in which their rules stand in the generated
stylesheet. Inside a family the order of the rules decides.
-/

namespace ClassSort.Family

/-- Places of a box that an image or an origin can take. -/
def positions : List String :=
  ["bottom", "center", "left", "left-bottom", "left-top", "right", "right-bottom", "right-top",
   "top"]

/-- Ways to blend two layers. -/
def blendModes : List String :=
  ["normal", "multiply", "screen", "overlay", "darken", "lighten", "color-dodge", "color-burn",
   "hard-light", "soft-light", "difference", "exclusion", "hue", "saturation", "color",
   "luminosity", "plus-lighter"]

/-- Lines of a grid. -/
def gridLines : List String :=
  ["auto", "1", "2", "3", "4", "5", "6", "7", "8", "9", "10", "11", "12", "13"]

/-- Where a page or column may break. -/
def breaks : List String :=
  ["auto", "avoid", "all", "avoid-page", "page", "left", "right", "column"]

/-- Steps of brightness. -/
def brightnessSteps : List String :=
  ["0", "50", "75", "90", "95", "100", "105", "110", "125", "150", "200"]

/-- Steps of contrast. -/
def contrastSteps : List String := ["0", "50", "75", "100", "125", "150", "200"]

/-- Steps of hue. -/
def hueSteps : List String := ["0", "15", "30", "60", "90", "180"]

/-- Steps of saturation. -/
def saturationSteps : List String := ["0", "50", "100", "150", "200"]

/-- An effect that is off or fully on. -/
def offOrOn : List String := ["0", "DEFAULT"]

/-- Distances of an outline or an underline. -/
def offsets : List String := ["0", "1", "2", "4", "8"]

/-- Shapes of the pointer. -/
def cursors : List String :=
  ["auto", "default", "pointer", "wait", "text", "move", "help", "not-allowed", "none",
   "context-menu", "progress", "cell", "crosshair", "vertical-text", "alias", "copy", "no-drop",
   "grab", "grabbing", "all-scroll", "col-resize", "row-resize", "n-resize", "e-resize",
   "s-resize", "w-resize", "ne-resize", "nw-resize", "se-resize", "sw-resize", "ew-resize",
   "ns-resize", "nesw-resize", "nwse-resize", "zoom-in", "zoom-out"]

/-- A rule without negative values. -/
def plain (values : Values) (root : String) : Rule := .valued root values false

/-- A rule with negative values. -/
def signed (values : Values) (root : String) : Rule := .valued root values true

/-- A family of the utilities layer. -/
def utilities (name : String) (rules : List Rule) : Family := ⟨name, .utilities, rules⟩

/-- Placement and display. -/
def placement : List Family :=
  [⟨"container", .components, [.names ["container"]]⟩,
   utilities "accessibility" [.names ["sr-only", "not-sr-only"]],
   utilities "pointerEvents" [.names ["pointer-events-none", "pointer-events-auto"]],
   utilities "visibility" [.names ["visible", "invisible", "collapse"]],
   utilities "position" [.names ["static", "fixed", "absolute", "relative", "sticky"]],
   utilities "inset"
      (["inset", "inset-x", "inset-y", "start", "end", "top", "right", "bottom", "left"].map
        (signed (.scale .inset))),
   utilities "isolation" [.names ["isolate", "isolation-auto"]],
   utilities "zIndex" [signed (.scale .zIndex) "z"],
   utilities "order" [signed (.scale .order) "order"],
   utilities "gridColumn" [plain (.scale .gridColumn) "col"],
   utilities "gridColumnStart" [plain (.listed gridLines) "col-start"],
   utilities "gridColumnEnd" [plain (.listed gridLines) "col-end"],
   utilities "gridRow" [plain (.scale .gridRow) "row"],
   utilities "gridRowStart" [plain (.listed gridLines) "row-start"],
   utilities "gridRowEnd" [plain (.listed gridLines) "row-end"],
   utilities "float" [.names
        ["float-start", "float-end", "float-right", "float-left", "float-none"]],
   utilities "clear" [.names
        ["clear-start", "clear-end", "clear-left", "clear-right", "clear-both", "clear-none"]],
   utilities "margin"
      (["m", "mx", "my", "ms", "me", "mt", "mr", "mb", "ml"].map
        (signed (.scale .margin))),
   utilities "boxSizing" [.names ["box-border", "box-content"]],
   utilities "display" [.names
        ["block", "inline-block", "inline", "flex", "inline-flex", "table", "inline-table",
         "table-caption", "table-cell", "table-column", "table-column-group",
         "table-footer-group", "table-header-group", "table-row-group", "table-row", "flow-root",
         "grid", "inline-grid", "contents", "list-item", "hidden"]]]

/-- Size and flexibility. -/
def sizing : List Family :=
  [utilities "aspectRatio" [plain (.scale .aspectRatio) "aspect"],
   utilities "height" [plain (.scale .height) "h"],
   utilities "maxHeight" [plain (.scale .maxHeight) "max-h"],
   utilities "minHeight" [plain (.scale .minHeight) "min-h"],
   utilities "width" [plain (.scale .width) "w"],
   utilities "minWidth" [plain (.scale .minWidth) "min-w"],
   utilities "maxWidth" [plain (.scale .maxWidth) "max-w"],
   utilities "flex" [plain (.scale .flex) "flex"],
   utilities "flexShrink" (["shrink", "flex-shrink"].map (plain (.scale .flexShrink))),
   utilities "flexGrow" (["grow", "flex-grow"].map (plain (.scale .flexGrow))),
   utilities "flexBasis" [plain (.scale .flexBasis) "basis"],
   utilities "tableLayout" [.names ["table-auto", "table-fixed"]],
   utilities "borderCollapse" [.names ["border-collapse", "border-separate"]]]

/-- Transforms and animation. -/
def transforms : List Family :=
  [utilities "transformOrigin" [plain (.listed
        ["center", "top", "top-right", "right", "bottom-right", "bottom", "bottom-left", "left",
         "top-left"]) "origin"],
   utilities "translate" (["translate-x", "translate-y"].map (signed (.scale .translate))),
   utilities "rotate" [signed (.scale .rotate) "rotate"],
   utilities "skew" (["skew-x", "skew-y"].map (signed (.scale .skew))),
   utilities "scale" (["scale", "scale-x", "scale-y"].map (signed (.scale .scale))),
   utilities "transform" [.names
        ["transform", "transform-cpu", "transform-gpu", "transform-none"]],
   utilities "animation" [plain (.scale .animation) "animate"]]

/-- Pointer, scrolling, lists and columns. -/
def interaction : List Family :=
  [utilities "cursor" [plain (.listed cursors) "cursor"],
   utilities "touchAction" [.names
        ["touch-auto", "touch-none", "touch-pan-x", "touch-pan-left", "touch-pan-right",
         "touch-pan-y", "touch-pan-up", "touch-pan-down", "touch-pinch-zoom",
         "touch-manipulation"]],
   utilities "userSelect" [.names ["select-none", "select-text", "select-all", "select-auto"]],
   utilities "resize" [.names ["resize-none", "resize-y", "resize-x", "resize"]],
   utilities "scrollSnapType" [.names
        ["snap-none", "snap-x", "snap-y", "snap-both", "snap-mandatory", "snap-proximity"]],
   utilities "scrollSnapAlign" [.names
        ["snap-start", "snap-end", "snap-center", "snap-align-none"]],
   utilities "scrollSnapStop" [.names ["snap-normal", "snap-always"]],
   utilities "scrollMargin"
      (["scroll-m", "scroll-mx", "scroll-my", "scroll-ms", "scroll-me", "scroll-mt", "scroll-mr",
       "scroll-mb", "scroll-ml"].map
        (signed (.scale .scrollMargin))),
   utilities "scrollPadding"
      (["scroll-p", "scroll-px", "scroll-py", "scroll-ps", "scroll-pe", "scroll-pt", "scroll-pr",
       "scroll-pb", "scroll-pl"].map
        (plain (.scale .scrollPadding))),
   utilities "listStylePosition" [.names ["list-inside", "list-outside"]],
   utilities "listStyleType" [plain (.listed ["none", "disc", "decimal"]) "list"],
   utilities "appearance" [.names ["appearance-none", "appearance-auto"]],
   utilities "columns" [plain (.scale .columns) "columns"]]

/-- Breaks, grids, alignment and the space between items. -/
def grids : List Family :=
  [utilities "breakBefore" [plain (.keywords breaks) "break-before"],
   utilities "breakInside" [plain (.keywords
        ["auto", "avoid", "avoid-page", "avoid-column"]) "break-inside"],
   utilities "breakAfter" [plain (.keywords breaks) "break-after"],
   utilities "gridAutoColumns" [plain (.listed ["auto", "min", "max", "fr"]) "auto-cols"],
   utilities "gridAutoFlow" [.names
        ["grid-flow-row", "grid-flow-col", "grid-flow-dense", "grid-flow-row-dense",
         "grid-flow-col-dense"]],
   utilities "gridAutoRows" [plain (.listed ["auto", "min", "max", "fr"]) "auto-rows"],
   utilities "gridTemplateColumns" [plain (.scale .gridTemplateColumns) "grid-cols"],
   utilities "gridTemplateRows" [plain (.scale .gridTemplateRows) "grid-rows"],
   utilities "flexDirection" [.names
        ["flex-row", "flex-row-reverse", "flex-col", "flex-col-reverse"]],
   utilities "flexWrap" [.names ["flex-wrap", "flex-wrap-reverse", "flex-nowrap"]],
   utilities "placeContent" [plain (.keywords
        ["center", "start", "end", "between", "around", "evenly", "baseline", "stretch"])
        "place-content"],
   utilities "placeItems" [plain (.keywords
        ["start", "end", "center", "baseline", "stretch"]) "place-items"],
   utilities "alignContent" [plain (.keywords
        ["normal", "center", "start", "end", "between", "around", "evenly", "baseline", "stretch"])
        "content"],
   utilities "alignItems" [plain (.keywords
        ["start", "end", "center", "baseline", "stretch"]) "items"],
   utilities "justifyContent" [plain (.keywords
        ["normal", "start", "end", "center", "between", "around", "evenly", "stretch"])
        "justify"],
   utilities "justifyItems" [plain (.keywords
        ["start", "end", "center", "stretch"]) "justify-items"],
   utilities "gap" (["gap", "gap-x", "gap-y"].map (plain (.scale .gap))),
   utilities "space"
      [signed (.scale .space) "space-x",
       signed (.scale .space) "space-y",
       .names ["space-x-reverse", "space-y-reverse"]],
   utilities "divideWidth"
      [plain (.scale .borderWidth) "divide-x",
       plain (.scale .borderWidth) "divide-y",
       .names ["divide-x-reverse", "divide-y-reverse"]],
   utilities "divideStyle" [.names
        ["divide-solid", "divide-dashed", "divide-dotted", "divide-double", "divide-none"]],
   utilities "divideColor" [plain (.colors []) "divide"],
   utilities "divideOpacity" [plain (.scale .opacity) "divide-opacity"],
   utilities "placeSelf" [plain (.keywords
        ["auto", "start", "end", "center", "stretch"]) "place-self"],
   utilities "alignSelf" [plain (.keywords
        ["auto", "start", "end", "center", "stretch", "baseline"]) "self"],
   utilities "justifySelf" [plain (.keywords
        ["auto", "start", "end", "center", "stretch"]) "justify-self"]]

/-- Overflow and line breaking. -/
def overflows : List Family :=
  [utilities "overflow" [.names
        ["overflow-auto", "overflow-hidden", "overflow-clip", "overflow-visible",
         "overflow-scroll", "overflow-x-auto", "overflow-y-auto", "overflow-x-hidden",
         "overflow-y-hidden", "overflow-x-clip", "overflow-y-clip", "overflow-x-visible",
         "overflow-y-visible", "overflow-x-scroll", "overflow-y-scroll"]],
   utilities "overscrollBehavior" [.names
        ["overscroll-auto", "overscroll-contain", "overscroll-none", "overscroll-y-auto",
         "overscroll-y-contain", "overscroll-y-none", "overscroll-x-auto", "overscroll-x-contain",
         "overscroll-x-none"]],
   utilities "scrollBehavior" [.names ["scroll-auto", "scroll-smooth"]],
   utilities "textOverflow" [.names
        ["truncate", "overflow-ellipsis", "text-ellipsis", "text-clip"]],
   utilities "whitespace" [plain (.keywords
        ["normal", "nowrap", "pre", "pre-line", "pre-wrap", "break-spaces"]) "whitespace"],
   utilities "wordBreak" [.names ["break-normal", "break-words", "break-all", "break-keep"]]]

/-- Borders. -/
def borders : List Family :=
  [utilities "borderRadius"
      (["rounded", "rounded-s", "rounded-e", "rounded-t", "rounded-r", "rounded-b", "rounded-l",
       "rounded-ss", "rounded-se", "rounded-ee", "rounded-es", "rounded-tl", "rounded-tr",
       "rounded-br", "rounded-bl"].map
        (plain (.scale .borderRadius))),
   utilities "borderWidth"
      (["border", "border-x", "border-y", "border-s", "border-e", "border-t", "border-r",
       "border-b", "border-l"].map
        (plain (.scale .borderWidth))),
   utilities "borderStyle" [.names
        ["border-solid", "border-dashed", "border-dotted", "border-double", "border-hidden",
         "border-none"]],
   utilities "borderColor"
      (["border", "border-x", "border-y", "border-s", "border-e", "border-t", "border-r",
       "border-b", "border-l"].map
        (plain (.colors []))),
   utilities "borderOpacity" [plain (.scale .opacity) "border-opacity"]]

/-- Backgrounds and images. -/
def backgrounds : List Family :=
  [utilities "backgroundColor" [plain (.colors []) "bg"],
   utilities "backgroundOpacity" [plain (.scale .opacity) "bg-opacity"],
   utilities "backgroundImage" [plain (.scale .backgroundImage) "bg"],
   utilities "gradientColorStops" (["from", "via", "to"].map (plain (.colors []))),
   utilities "boxDecorationBreak" [.names
        ["decoration-slice", "decoration-clone", "box-decoration-slice", "box-decoration-clone"]],
   utilities "backgroundSize" [plain (.listed ["auto", "cover", "contain"]) "bg"],
   utilities "backgroundAttachment" [.names ["bg-fixed", "bg-local", "bg-scroll"]],
   utilities "backgroundClip" [.names
        ["bg-clip-border", "bg-clip-padding", "bg-clip-content", "bg-clip-text"]],
   utilities "backgroundPosition" [plain (.listed positions) "bg"],
   utilities "backgroundRepeat" [.names
        ["bg-repeat", "bg-no-repeat", "bg-repeat-x", "bg-repeat-y", "bg-repeat-round",
         "bg-repeat-space"]],
   utilities "backgroundOrigin" [.names
        ["bg-origin-border", "bg-origin-padding", "bg-origin-content"]],
   utilities "fill" [plain (.colors ["none"]) "fill"],
   utilities "stroke" [plain (.colors ["none"]) "stroke"],
   utilities "strokeWidth" [plain (.listed ["0", "1", "2"]) "stroke"],
   utilities "objectFit" [.names
        ["object-contain", "object-cover", "object-fill", "object-none", "object-scale-down"]],
   utilities "objectPosition" [plain (.listed positions) "object"]]

/-- Padding and text. -/
def typography : List Family :=
  [utilities "padding"
      (["p", "px", "py", "ps", "pe", "pt", "pr", "pb", "pl"].map
        (plain (.scale .padding))),
   utilities "textAlign" [.names
        ["text-left", "text-center", "text-right", "text-justify", "text-start", "text-end"]],
   utilities "textIndent" [signed (.scale .textIndent) "indent"],
   utilities "verticalAlign" [plain (.listed
        ["baseline", "top", "middle", "bottom", "text-top", "text-bottom", "sub", "super"])
        "align"],
   utilities "fontFamily" [plain (.scale .fontFamily) "font"],
   utilities "fontSize" [plain (.scale .fontSize) "text"],
   utilities "fontWeight" [plain (.scale .fontWeight) "font"],
   utilities "textTransform" [.names ["uppercase", "lowercase", "capitalize", "normal-case"]],
   utilities "fontStyle" [.names ["italic", "not-italic"]],
   utilities "fontVariantNumeric" [.names
        ["normal-nums", "ordinal", "slashed-zero", "lining-nums", "oldstyle-nums",
         "proportional-nums", "tabular-nums", "diagonal-fractions", "stacked-fractions"]],
   utilities "lineHeight" [plain (.scale .lineHeight) "leading"],
   utilities "letterSpacing" [signed (.scale .letterSpacing) "tracking"],
   utilities "textColor" [plain (.colors []) "text"],
   utilities "textOpacity" [plain (.scale .opacity) "text-opacity"],
   utilities "textDecoration" [.names ["underline", "overline", "line-through", "no-underline"]],
   utilities "textDecorationColor" [plain (.colors []) "decoration"],
   utilities "textDecorationStyle" [.names
        ["decoration-solid", "decoration-double", "decoration-dotted", "decoration-dashed",
         "decoration-wavy"]],
   utilities "textDecorationThickness" [plain (.listed
        ["auto", "from-font", "0", "1", "2", "4", "8"]) "decoration"],
   utilities "textUnderlineOffset" [plain (.listed
        ["auto", "0", "1", "2", "4", "8"]) "underline-offset"],
   utilities "fontSmoothing" [.names ["antialiased", "subpixel-antialiased"]],
   utilities "placeholderColor" [plain (.colors []) "placeholder"],
   utilities "placeholderOpacity" [plain (.scale .opacity) "placeholder-opacity"],
   utilities "caretColor" [plain (.colors []) "caret"],
   utilities "accentColor" [plain (.colors ["auto"]) "accent"]]

/-- Opacity, shadows, outlines and rings. -/
def effects : List Family :=
  [utilities "opacity" [plain (.scale .opacity) "opacity"],
   utilities "backgroundBlendMode" [plain (.keywords blendModes) "bg-blend"],
   utilities "mixBlendMode" [plain (.keywords blendModes) "mix-blend"],
   utilities "boxShadow" [plain (.scale .boxShadow) "shadow"],
   utilities "boxShadowColor" [plain (.colors []) "shadow"],
   utilities "outlineStyle" [.names
        ["outline-none", "outline", "outline-dashed", "outline-dotted", "outline-double"]],
   utilities "outlineWidth" [plain (.scale .outlineWidth) "outline"],
   utilities "outlineOffset" [plain (.listed offsets) "outline-offset"],
   utilities "outlineColor" [plain (.colors []) "outline"],
   utilities "ringWidth" [plain (.scale .ringWidth) "ring", .names ["ring-inset"]],
   utilities "ringColor" [plain (.colors []) "ring"],
   utilities "ringOpacity" [plain (.scale .opacity) "ring-opacity"],
   utilities "ringOffsetWidth" [plain (.listed offsets) "ring-offset"],
   utilities "ringOffsetColor" [plain (.colors []) "ring-offset"]]

/-- Filters. -/
def filters : List Family :=
  [utilities "blur" [plain (.scale .blur) "blur"],
   utilities "brightness" [plain (.listed brightnessSteps) "brightness"],
   utilities "contrast" [plain (.listed contrastSteps) "contrast"],
   utilities "dropShadow" [plain (.scale .dropShadow) "drop-shadow"],
   utilities "grayscale" [plain (.listed offOrOn) "grayscale"],
   utilities "hueRotate" [signed (.listed hueSteps) "hue-rotate"],
   utilities "invert" [plain (.listed offOrOn) "invert"],
   utilities "saturate" [plain (.listed saturationSteps) "saturate"],
   utilities "sepia" [plain (.listed offOrOn) "sepia"],
   utilities "filter" [.names ["filter", "filter-none"]],
   utilities "backdropBlur" [plain (.scale .blur) "backdrop-blur"],
   utilities "backdropBrightness" [plain (.listed brightnessSteps) "backdrop-brightness"],
   utilities "backdropContrast" [plain (.listed contrastSteps) "backdrop-contrast"],
   utilities "backdropGrayscale" [plain (.listed offOrOn) "backdrop-grayscale"],
   utilities "backdropHueRotate" [signed (.listed hueSteps) "backdrop-hue-rotate"],
   utilities "backdropInvert" [plain (.listed offOrOn) "backdrop-invert"],
   utilities "backdropOpacity" [plain (.scale .opacity) "backdrop-opacity"],
   utilities "backdropSaturate" [plain (.listed saturationSteps) "backdrop-saturate"],
   utilities "backdropSepia" [plain (.listed offOrOn) "backdrop-sepia"],
   utilities "backdropFilter" [.names ["backdrop-filter", "backdrop-filter-none"]]]

/-- Transitions and content. -/
def transitions : List Family :=
  [utilities "transitionProperty" [plain (.scale .transitionProperty) "transition"],
   utilities "transitionDelay" [plain (.scale .transitionDelay) "delay"],
   utilities "transitionDuration" [plain (.scale .transitionDuration) "duration"],
   utilities "transitionTimingFunction" [plain (.scale .transitionTimingFunction) "ease"],
   utilities "willChange" [plain (.listed
        ["auto", "scroll", "contents", "transform"]) "will-change"],
   utilities "content" [plain (.listed ["none"]) "content"]]

/-- All families, in order. -/
def all : List Family :=
  placement ++ sizing ++ transforms ++ interaction ++ grids ++ overflows ++
    borders ++ backgrounds ++ typography ++ effects ++ filters ++ transitions

end ClassSort.Family
