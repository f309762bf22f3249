/-!
The files of the reference that are the same for every design: a script that
shows the tree of nodes and loads their pages, and a style sheet.
-/

namespace RegisterMap.Html

/-- The lines of the script. -/
def scriptLines : List String := [
    "// Licensed under the Apache-2.0 license",
    "",
    "// Navigation for the generated reference. Expects RALIndex and PageInfo from",
    "// data.js. Node pages are fragments under content/ and are loaded on demand.",
    "",
    "function nodePath(id) \x7b",
    "    var names = [];",
    "    while (id !== null) \x7b",
    "        var node = RALIndex[id];",
    "        var name = node.name;",
    "        if (node.dims) \x7b",
    "            for (var i = 0; i < node.dims.length; i++) \x7b",
    "                name += \"[\" + node.idxs[i] + \"]\";",
    "            \x7d",
    "        \x7d",
    "        names.unshift(name);",
    "        id = node.parent;",
    "    \x7d",
    "    return names.join(\".\");",
    "\x7d",
    "",
    "function absoluteAddress(id) \x7b",
    "    var addr = 0n;",
    "    while (id !== null) \x7b",
    "        var node = RALIndex[id];",
    "        addr += node.offset;",
    "        if (node.dims) \x7b",
    "            var linear = 0n;",
    "            for (var i = 0; i < node.dims.length; i++) \x7b",
    "                linear = linear * BigInt(node.dims[i]) + BigInt(node.idxs[i]);",
    "            \x7d",
    "            addr += linear * node.stride;",
    "        \x7d",
    "        id = node.parent;",
    "    \x7d",
    "    return addr;",
    "\x7d",
    "",
    "function buildTree(id) \x7b",
    "    var node = RALIndex[id];",
    "    var li = document.createElement(\"li\");",
    "    var a = document.createElement(\"a\");",
    "    a.href = \"#\" + id;",
    "    a.id = \"tree-\" + id;",
    "    a.textContent = node.name + (node.dims ? \"[]\" : \"\");",
    "    li.appendChild(a);",
    "    if (node.children.length > 0) \x7b",
    "        var ul = document.createElement(\"ul\");",
    "        for (var i = 0; i < node.children.length; i++) \x7b",
    "            ul.appendChild(buildTree(node.children[i]));",
    "        \x7d",
    "        li.appendChild(ul);",
    "    \x7d",
    "    return li;",
    "\x7d",
    "",
    "function loadPage(id) \x7b",
    "    if (!(id in RALIndex)) \x7b",
    "        id = 0;",
    "    \x7d",
    "    var selected = document.querySelector(\"nav#sb-tree a.selected\");",
    "    if (selected) \x7b",
    "        selected.classList.remove(\"selected\");",
    "    \x7d",
    "    var link = document.getElementById(\"tree-\" + id);",
    "    if (link) \x7b",
    "        link.classList.add(\"selected\");",
    "    \x7d",
    "    fetch(\"content/\" + id + \".html\")",
    "        .then(function (response) \x7b return response.text(); \x7d)",
    "        .then(function (html) \x7b",
    "            var main = document.getElementById(\"content\");",
    "            main.innerHTML = html;",
    "            main.setAttribute(\"data-path\", nodePath(id));",
    "            main.setAttribute(\"data-address\", \"0x\" + absoluteAddress(id).toString(16));",
    "            document.title = nodePath(id) + \" - \" + PageInfo.title;",
    "        \x7d);",
    "\x7d",
    "",
    "function currentId() \x7b",
    "    var id = parseInt(window.location.hash.substring(1), 10);",
    "    return isNaN(id) ? 0 : id;",
    "\x7d",
    "",
    "function onPageLoad() \x7b",
    "    var ul = document.createElement(\"ul\");",
    "    ul.appendChild(buildTree(0));",
    "    document.getElementById(\"sb-tree\").appendChild(ul);",
    "    window.addEventListener(\"hashchange\", function () \x7b loadPage(currentId()); \x7d);",
    "    loadPage(currentId());",
    "\x7d"]

/-- The lines of the style sheet. -/
def styleLines : List String := [
    "/* Licensed under the Apache-2.0 license */",
    "",
    "body \x7b",
    "    margin: 0;",
    "    font-family: sans-serif;",
    "    display: grid;",
    "    grid-template-columns: 20em 1fr;",
    "    grid-template-rows: auto 1fr auto;",
    "    min-height: 100vh;",
    "\x7d",
    "",
    "header \x7b",
    "    grid-column: 1 / 3;",
    "    padding: 0.5em 1em;",
    "    background: #2c3e50;",
    "    color: #fff;",
    "\x7d",
    "",
    "header a.home \x7b",
    "    color: #fff;",
    "    margin-right: 1em;",
    "\x7d",
    "",
    "nav#sb-tree \x7b",
    "    overflow: auto;",
    "    border-right: 1px solid #ccc;",
    "    padding: 0.5em;",
    "    font-size: 0.9em;",
    "\x7d",
    "",
    "nav#sb-tree ul \x7b",
    "    list-style: none;",
    "    padding-left: 1em;",
    "    margin: 0;",
    "\x7d",
    "",
    "nav#sb-tree a.selected \x7b",
    "    font-weight: bold;",
    "\x7d",
    "",
    "main#content \x7b",
    "    padding: 1em 2em;",
    "    overflow: auto;",
    "\x7d",
    "",
    "footer \x7b",
    "    grid-column: 1 / 3;",
    "    padding: 0.25em 1em;",
    "    font-size: 0.8em;",
    "    color: #666;",
    "    border-top: 1px solid #ccc;",
    "\x7d",
    "",
    "table \x7b",
    "    border-collapse: collapse;",
    "    margin: 0.5em 0 1em 0;",
    "\x7d",
    "",
    "th, td \x7b",
    "    border: 1px solid #ccc;",
    "    padding: 0.2em 0.6em;",
    "    text-align: left;",
    "    font-family: monospace;",
    "\x7d",
    "",
    "table.props th \x7b",
    "    background: #f4f4f4;",
    "\x7d",
    "",
    "div.desc img \x7b",
    "    max-width: 100%;",
    "\x7d"]

/-- Lines as a file, each with its end. -/
def fileOfLines (lines : List String) : ByteArray := (String.join (lines.map (· ++ "\n"))).toUTF8

end RegisterMap.Html
